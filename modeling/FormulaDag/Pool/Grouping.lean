import FormulaDag.Pool.Basic
import FormulaDag.Text.Parentheses

/-!
# Groups

The groups of a source text become indices. Braces go first: from the left, whenever a brace closes, the text since its opener is
replaced by a token, and what is left in the end is the root. Then the parentheses of every text are treated in the same way, and
after them the brackets, which stay around the token so that the degree of a root can be recognised.
-/

namespace FormulaDag.Pool

/-- A pool together with the indices that were created since some point, in order. -/
structure Growth where
  pool : Pool
  created : List Nat

namespace Growth

/-- The token for the inner text of a group. A text that is a token already stands for itself. -/
def tokenFor (g : Growth) (inner : Text) : Growth × Text :=
  if (Token.only? (Text.unwrap inner)).isSome then (g, Text.unwrap inner)
  else
    match g.pool.intern (Text.unwrap inner) with
    | ⟨pool, i, true⟩ => (⟨pool, g.created ++ [i]⟩, Index.token i)
    | ⟨pool, i, false⟩ => (⟨pool, g.created⟩, Index.token i)

/-- Replaces each group by its token when its delimiter closes. `here` is the text since the last open delimiter and `around` the
texts before it, one for each open delimiter from the innermost out, all of them reversed. Delimiters without a partner stay. -/
def replaceGroups (opener closer : Char) (g : Growth) (here : Text) (around : List Text) : Text → Growth × Text
  | [] => (g, (around.foldl (fun inner outer => inner ++ opener :: outer) here).reverse)
  | c :: rest =>
    if c = opener then replaceGroups opener closer g [] (here :: around) rest
    else if c = closer then
      match around with
      | [] => replaceGroups opener closer g (c :: here) [] rest
      | outer :: more =>
        replaceGroups opener closer (g.tokenFor here.reverse).1 ((g.tokenFor here.reverse).2.reverse ++ outer) more rest
    else replaceGroups opener closer g (c :: here) around rest

/-- Replaces the inner text of each pair of brackets without brackets or parentheses inside. `done` is the text up to the last such
opening bracket and `inner` the text since then, if there is one, both reversed. -/
def replaceBrackets (g : Growth) (done : Text) (inner : Option Text) : Text → Growth × Text
  | [] => (g, (inner.getD [] ++ done).reverse)
  | c :: rest =>
    match inner with
    | none => replaceBrackets g (c :: done) (if c = '[' then some [] else none) rest
    | some text =>
      if c = '[' then replaceBrackets g (c :: (text ++ done)) (some []) rest
      else if c = ']' then
        replaceBrackets (g.tokenFor text.reverse).1 (c :: ((g.tokenFor text.reverse).2.reverse ++ done)) none rest
      else if c = '(' ∨ c = ')' then replaceBrackets g (c :: (text ++ done)) none rest
      else replaceBrackets g done (some (c :: text)) rest

/-- Replaces the parentheses and then the brackets of a text. -/
def reduceText (g : Growth) (t : Text) : Growth × Text :=
  replaceBrackets (replaceGroups '(' ')' g [] [] t).1 [] none (replaceGroups '(' ')' g [] [] t).2

/-- Replaces the text of an index, unless it is the same. -/
def setText (g : Growth) (i : Nat) (t : Text) : Growth :=
  if t = g.pool.text i then g else ⟨g.pool.setText i t, g.created⟩

/-- Replaces the parentheses and then the brackets in the text of an index. -/
def reduceGroupsOf (g : Growth) (i : Nat) : Growth :=
  if g.pool.holds i then (g.reduceText (g.pool.text i)).1.setText i (g.reduceText (g.pool.text i)).2 else g

end Growth

/-- Takes the braces of a source text apart. What is left becomes the root. -/
def ofBraces (source : Text) : Pool :=
  let taken := Growth.replaceGroups '{' '}' ⟨empty, []⟩ [] [] source
  taken.1.pool.setText Index.root (Text.unwrap taken.2)

/-- Takes parentheses and brackets apart in every text, then brackets in the texts that this created. Texts created from brackets
hold no groups any more. -/
def withoutGroups (p : Pool) : Pool :=
  let g := p.holders.foldl Growth.reduceGroupsOf ⟨p, []⟩
  (g.created.foldl Growth.reduceGroupsOf ⟨g.pool, []⟩).pool

end FormulaDag.Pool
