import Mathlib

/-!
# Computations that may fail

When a computation in `Except` succeeds, so did every part of it. Two computations are alike when both fail, for whatever reason, or both
succeed with related values; what is put together from alike computations in the same way is alike.
-/

namespace FormulaDag

/-- A computation followed by another gives a result when both do. -/
theorem bind_eq_ok {α β ε : Type} {x : Except ε α} {f : α → Except ε β} {b : β} :
    x >>= f = .ok b ↔ ∃ a, x = .ok a ∧ f a = .ok b := by
  cases x <;> simp [bind, Except.bind]

/-- A mapped computation gives a result when the computation does. -/
theorem map_eq_ok {α β ε : Type} {x : Except ε α} {f : α → β} {b : β} : x.map f = .ok b ↔ ∃ a, x = .ok a ∧ f a = b := by
  cases x <;> simp [Except.map]

/-- Mapped errors do not change what the results are. -/
theorem mapError_eq_ok {α ε ε' : Type} {x : Except ε α} {f : ε → ε'} {a : α} : x.mapError f = .ok a ↔ x = .ok a := by
  cases x <;> simp [Except.mapError]

/-- A computation on every element of a list succeeds when it does on each of them. -/
theorem mapM_eq_ok_iff {α β ε : Type} {f : α → Except ε β} {xs : List α} {ys : List β} :
    xs.mapM f = .ok ys ↔ xs.map f = ys.map .ok := by
  induction xs generalizing ys with
  | nil =>
    rw [List.mapM_nil, List.map_nil, eq_comm (a := []), List.map_eq_nil_iff]
    simp [pure, Except.pure, eq_comm]
  | cons x xs ih =>
    rw [List.mapM_cons, bind_eq_ok, List.map_cons]
    constructor
    · rintro ⟨y, hx, h⟩
      obtain ⟨zs, hzs, h⟩ := bind_eq_ok.1 h
      rw [← Except.ok.inj h, List.map_cons, hx, ih.1 hzs]
    · intro h
      cases ys with
      | nil => simp at h
      | cons y zs =>
        obtain ⟨hx, hzs⟩ := List.cons.inj h
        exact ⟨y, hx, bind_eq_ok.2 ⟨zs, ih.2 hzs, rfl⟩⟩

/-- Mapping a list succeeds when each of its elements is mapped as a relation says. -/
theorem mapM_eq_ok_iff_forall₂ {α β ε : Type} {f : α → Except ε β} {R : α → β → Prop} {xs : List α} {ys : List β}
    (h : ∀ x ∈ xs, ∀ y, R x y ↔ f x = .ok y) : xs.mapM f = .ok ys ↔ List.Forall₂ R xs ys := by
  rw [mapM_eq_ok_iff]
  induction xs generalizing ys with
  | nil => simp [eq_comm]
  | cons x xs ih =>
    cases ys with
    | nil => simp
    | cons y ys =>
      rw [List.map_cons, List.map_cons, List.cons.injEq, List.forall₂_cons, h x (by simp),
        ih fun x hx => h x (List.mem_cons_of_mem _ hx)]

/-- A computation on every element of a list fails as it does on the first element on which it fails. -/
theorem mapM_eq_error_iff {α β ε : Type} {f : α → Except ε β} {xs : List α} {fault : ε} :
    xs.mapM f = .error fault ↔
      ∃ before x after, xs = before ++ x :: after ∧ (∀ earlier ∈ before, ∃ y, f earlier = .ok y) ∧ f x = .error fault := by
  induction xs with
  | nil => simp [pure, Except.pure]
  | cons x xs ih =>
    rw [List.mapM_cons]
    cases hx : f x with
    | error fault' =>
      constructor
      · intro h
        obtain rfl : fault' = fault := Except.error.inj h
        exact ⟨[], x, xs, rfl, by simp, hx⟩
      · rintro ⟨before, x', after, heq, hbefore, hx'⟩
        cases before with
        | nil =>
          rw [← (List.cons.inj heq).1, hx] at hx'
          rw [Except.error.inj hx']
          rfl
        | cons earlier before =>
          obtain ⟨y, hy⟩ := hbefore earlier (by simp)
          rw [← (List.cons.inj heq).1, hx] at hy
          simp at hy
    | ok y =>
      have hrest : (do let ys ← xs.mapM f; pure (y :: ys)) = Except.error fault ↔ xs.mapM f = .error fault := by
        cases xs.mapM f <;> simp [bind, Except.bind, pure, Except.pure]
      refine hrest.trans (ih.trans ⟨?_, ?_⟩)
      · rintro ⟨before, x', after, rfl, hbefore, hx'⟩
        exact ⟨x :: before, x', after, rfl, List.forall_mem_cons.2 ⟨⟨y, hx⟩, hbefore⟩, hx'⟩
      · rintro ⟨before, x', after, heq, hbefore, hx'⟩
        cases before with
        | nil =>
          rw [← (List.cons.inj heq).1, hx] at hx'
          simp at hx'
        | cons earlier before =>
          exact ⟨before, x', after, (List.cons.inj heq).2, fun b hb => hbefore b (List.mem_cons_of_mem _ hb), hx'⟩

/-- Mapping a list has a result when every element has one. -/
theorem exists_mapM_iff {α β ε : Type} {f : α → Except ε β} {xs : List α} :
    (∃ ys, xs.mapM f = .ok ys) ↔ ∀ x ∈ xs, ∃ y, f x = .ok y := by
  constructor
  · rintro ⟨ys, hys⟩ x hx
    have hmem : f x ∈ ys.map .ok := by
      rw [← mapM_eq_ok_iff.1 hys]
      exact List.mem_map_of_mem hx
    obtain ⟨y, -, hy⟩ := List.mem_map.1 hmem
    exact ⟨y, hy.symm⟩
  · intro h
    induction xs with
    | nil => exact ⟨[], rfl⟩
    | cons x xs ih =>
      obtain ⟨y, hy⟩ := h x (by simp)
      obtain ⟨ys, hys⟩ := ih fun x hx => h x (List.mem_cons_of_mem _ hx)
      rw [mapM_eq_ok_iff] at hys
      exact ⟨y :: ys, mapM_eq_ok_iff.2 (by rw [List.map_cons, List.map_cons, hy, hys])⟩

/-- Every element of the result is the value of the computation on some element. -/
theorem exists_of_mem_mapM {α β ε : Type} {f : α → Except ε β} {xs : List α} {ys : List β} (h : xs.mapM f = .ok ys)
    {y : β} (hy : y ∈ ys) : ∃ x ∈ xs, f x = .ok y := by
  have hmem : Except.ok y ∈ xs.map f := by
    rw [mapM_eq_ok_iff.1 h]
    exact List.mem_map_of_mem hy
  exact List.mem_map.1 hmem

/-- Mapping a list depends on what its elements are mapped to only. -/
theorem mapM_congr {α β ε : Type} {f g : α → Except ε β} {xs : List α} (h : ∀ x ∈ xs, f x = g x) :
    xs.mapM f = xs.mapM g := by
  induction xs with
  | nil => rfl
  | cons x xs ih =>
    rw [List.mapM_cons, List.mapM_cons, h x (by simp), ih fun y hy => h y (List.mem_cons_of_mem _ hy)]

/-- What every step of a fold that may fail preserves holds of its answer. -/
theorem foldlM_invariant {α β ε : Type} {f : β → α → Except ε β} {P : β → Prop} {l : List α} {b b' : β}
    (hstep : ∀ a ∈ l, ∀ b b', P b → f b a = .ok b' → P b') (hb : P b) (h : l.foldlM f b = .ok b') : P b' := by
  induction l generalizing b with
  | nil =>
    rw [List.foldlM_nil, pure, Except.instMonad] at h
    exact Except.ok.inj h ▸ hb
  | cons a l ih =>
    rw [List.foldlM_cons] at h
    obtain ⟨c, hc, h⟩ := bind_eq_ok.1 h
    exact ih (fun a ha => hstep a (List.mem_cons_of_mem _ ha)) (hstep a (by simp) b c hb hc) h

/-- Two computations that both fail or both succeed with related values. -/
inductive Alike {ε ε' α β : Type} (R : α → β → Prop) : Except ε α → Except ε' β → Prop where
  | error (e : ε) (e' : ε') : Alike R (.error e) (.error e')
  | ok {a : α} {b : β} (h : R a b) : Alike R (.ok a) (.ok b)

section
variable {ε ε' ε₁ ε₁' α α' β β' γ γ' : Type} {R : α → α' → Prop} {S : β → β' → Prop} {x : Except ε α} {x' : Except ε' α'}

/-- Alike computations are alike for a wider relation. -/
theorem Alike.mono {R' : α → α' → Prop} (h : Alike R x x') (hsub : ∀ a a', R a a' → R' a a') : Alike R' x x' := by
  cases h with
  | error => exact .error _ _
  | ok h => exact .ok (hsub _ _ h)

/-- A computation is like itself. -/
theorem Alike.refl {S : α → α → Prop} (x : Except ε α) (h : ∀ a, S a a) : Alike S x x := by
  cases x with
  | error e => exact .error e e
  | ok a => exact .ok (h a)

/-- Alike computations are alike when their results are mapped. -/
theorem Alike.map {f : α → β} {g : α' → β'} (h : Alike R x x') (hfg : ∀ a a', R a a' → S (f a) (g a')) :
    Alike S (x.map f) (x'.map g) := by
  cases h with
  | error => exact .error _ _
  | ok h => exact .ok (hfg _ _ h)

/-- Alike computations are alike when alike ones follow. -/
theorem Alike.bind {f : α → Except ε β} {g : α' → Except ε' β'} (h : Alike R x x') (hfg : ∀ a a', R a a' → Alike S (f a) (g a')) :
    Alike S (x >>= f) (x' >>= g) := by
  cases h with
  | error => exact .error _ _
  | ok h => exact hfg _ _ h

/-- Mapping related lists by alike computations is alike. -/
theorem Alike.mapM {f : α → Except ε β} {g : α' → Except ε' β'} {l : List α} {l' : List α'} (h : List.Forall₂ R l l')
    (hfg : ∀ a a', R a a' → Alike S (f a) (g a')) : Alike (List.Forall₂ S) (l.mapM f) (l'.mapM g) := by
  induction h with
  | nil => exact .ok .nil
  | cons ha _ ih =>
    rw [List.mapM_cons, List.mapM_cons]
    exact (hfg _ _ ha).bind fun b b' hb => ih.bind fun bs bs' hbs => .ok (.cons hb hbs)

/-- A map over one list is alike for functions that are alike on its elements. -/
theorem Alike.mapM_self {f : γ → Except ε β} {g : γ → Except ε' β} {l : List γ} (h : ∀ c ∈ l, Alike Eq (f c) (g c)) :
    Alike Eq (l.mapM f) (l.mapM g) := by
  induction l with
  | nil => exact .ok rfl
  | cons c l ih =>
    rw [List.mapM_cons, List.mapM_cons]
    exact (h c (by simp)).bind fun b b' hb => (ih fun d hd => h d (List.mem_cons_of_mem _ hd)).bind
      fun bs bs' hbs => .ok (by rw [hb, hbs])

/-- Of alike computations both give a result or none does. -/
theorem Alike.exists_ok_iff (h : Alike R x x') : (∃ a, x = .ok a) ↔ ∃ a', x' = .ok a' := by
  cases h <;> simp

theorem Alike.eq_ok_iff {x y : Except ε α} (h : Alike Eq x y) {a : α} : x = .ok a ↔ y = .ok a := by
  cases h with
  | error => simp
  | ok heq => rw [heq]

end

/-- Optional values that are related are both absent or both present. -/
theorem rel_cases {α β : Type} {R : α → β → Prop} {x : Option α} {y : Option β} (h : Option.Rel R x y) :
    (x = none ∧ y = none) ∨ ∃ a b, x = some a ∧ y = some b ∧ R a b := by
  cases h with
  | some hab => exact .inr ⟨_, _, rfl, rfl, hab⟩
  | none => exact .inl ⟨rfl, rfl⟩

end FormulaDag
