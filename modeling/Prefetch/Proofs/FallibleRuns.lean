import Mathlib.Data.List.Forall2

/-!
# Computations that may fail

A chain of steps succeeds only if every step does. The lemmas here open a successful computation
into its successful steps: a sequence of two, a step on every entry of a list, and a fold. What
holds at the start of a fold and is kept by every step that succeeds holds at its end. A sequence
of two steps fails where one of them does, and a fold fails at the first entry that is refused after
those before it.
-/

namespace Prefetch

variable {ε α β : Type}

theorem bind_eq_ok_iff {x : Except ε α} {f : α → Except ε β} {b : β} :
    (x >>= f) = .ok b ↔ ∃ a, x = .ok a ∧ f a = .ok b := by
  cases x with
  | error e => simp [bind, Except.bind]
  | ok a => simp [bind, Except.bind]

theorem bind_eq_error_iff {x : Except ε α} {f : α → Except ε β} {e : ε} :
    (x >>= f) = .error e ↔ x = .error e ∨ ∃ a, x = .ok a ∧ f a = .error e := by
  cases x with
  | error e => simp [bind, Except.bind]
  | ok a => simp [bind, Except.bind]

theorem map_eq_ok_iff {x : Except ε α} {f : α → β} {b : β} :
    x.map f = .ok b ↔ ∃ a, x = .ok a ∧ f a = b := by
  cases x with
  | error e => simp [Except.map]
  | ok a => simp [Except.map]

theorem map_eq_error_iff {x : Except ε α} {f : α → β} {e : ε} :
    x.map f = .error e ↔ x = .error e := by
  cases x with
  | error e => simp [Except.map]
  | ok a => simp [Except.map]

theorem mapM_eq_ok_iff {f : α → Except ε β} {xs : List α} {ys : List β} :
    xs.mapM f = .ok ys ↔ List.Forall₂ (fun x y => f x = .ok y) xs ys := by
  induction xs generalizing ys with
  | nil =>
    simp only [List.mapM_nil, List.forall₂_nil_left_iff]
    exact ⟨fun h => (Except.ok.inj h).symm, fun h => h ▸ rfl⟩
  | cons x xs ih =>
    simp only [List.mapM_cons, bind_eq_ok_iff, List.forall₂_cons_left_iff]
    constructor
    · rintro ⟨y, hy, ys', hys', hpure⟩
      exact ⟨y, ys', hy, ih.mp hys', (Except.ok.inj hpure).symm⟩
    · rintro ⟨y, ys', hy, hys', rfl⟩
      exact ⟨y, hy, ys', ih.mpr hys', rfl⟩

theorem exists_of_mapM_eq_error {f : α → Except ε β} {xs : List α} {e : ε}
    (h : xs.mapM f = .error e) : ∃ x ∈ xs, f x = .error e := by
  induction xs with
  | nil => cases h
  | cons x xs ih =>
    simp only [List.mapM_cons, bind_eq_error_iff] at h
    rcases h with hx | ⟨y, -, hrest | ⟨ys, -, hlast⟩⟩
    · exact ⟨x, List.mem_cons_self, hx⟩
    · obtain ⟨x', hx', hfailed⟩ := ih hrest
      exact ⟨x', List.mem_cons_of_mem _ hx', hfailed⟩
    · cases hlast

theorem forall₂_imp_of_mem {R S : α → β → Prop} {xs : List α} {ys : List β}
    (h : List.Forall₂ R xs ys) (himp : ∀ x ∈ xs, ∀ y, R x y → S x y) : List.Forall₂ S xs ys := by
  induction h with
  | nil => exact .nil
  | cons hxy _ ih =>
    refine .cons (himp _ List.mem_cons_self _ hxy) (ih fun x hx => ?_)
    exact himp x (List.mem_cons_of_mem _ hx)

theorem exists_of_mem_right {R : α → β → Prop} {xs : List α} {ys : List β}
    (h : List.Forall₂ R xs ys) {y : β} (hy : y ∈ ys) : ∃ x ∈ xs, R x y := by
  induction h with
  | nil => cases hy
  | cons hxy _ ih =>
    rcases List.mem_cons.mp hy with rfl | hy
    · exact ⟨_, List.mem_cons_self, hxy⟩
    · obtain ⟨x, hx, hxy⟩ := ih hy
      exact ⟨x, List.mem_cons_of_mem _ hx, hxy⟩

theorem exists_of_mem_left {R : α → β → Prop} {xs : List α} {ys : List β}
    (h : List.Forall₂ R xs ys) {x : α} (hx : x ∈ xs) : ∃ y ∈ ys, R x y :=
  exists_of_mem_right h.flip hx

theorem foldlM_invariant {motive : α → Prop} {step : α → β → Except ε α}
    (hstep : ∀ a b a', motive a → step a b = .ok a' → motive a') {xs : List β} {a last : α}
    (h : xs.foldlM step a = .ok last) (ha : motive a) : motive last := by
  induction xs generalizing a with
  | nil =>
    cases h
    exact ha
  | cons x xs ih =>
    rw [List.foldlM_cons, bind_eq_ok_iff] at h
    obtain ⟨a', hx, hrest⟩ := h
    exact ih hrest (hstep a x a' ha hx)

/-- A fold fails at an entry, after the entries before it succeeded. -/
theorem foldlM_eq_error_iff {step : α → β → Except ε α} {xs : List β} {a : α} {e : ε} :
    xs.foldlM step a = .error e ↔
      ∃ before x after state, xs = before ++ x :: after ∧ before.foldlM step a = .ok state ∧
        step state x = .error e := by
  constructor
  · intro h
    induction xs generalizing a with
    | nil => cases h
    | cons x xs ih =>
      rw [List.foldlM_cons, bind_eq_error_iff] at h
      rcases h with hx | ⟨next, hx, hrest⟩
      · exact ⟨[], x, xs, a, rfl, rfl, hx⟩
      · obtain ⟨before, y, after, state, rfl, hbefore, hy⟩ := ih hrest
        refine ⟨x :: before, y, after, state, rfl, ?_, hy⟩
        rw [List.foldlM_cons, hx]
        exact hbefore
  · intro h
    obtain ⟨before, x, after, state, rfl, hbefore, hx⟩ := h
    rw [List.foldlM_append, hbefore]
    apply bind_eq_error_iff.mpr
    refine .inr ⟨state, rfl, ?_⟩
    rw [List.foldlM_cons, hx]
    rfl

def NoneRefused (refuses : List β → β → ε → Prop) (xs : List β) : Prop :=
  ∀ before x after e, xs = before ++ x :: after → ¬ refuses before x e

/-- An entry of the list is refused after those before it, and none of these is. -/
def FirstRefused (refuses : List β → β → ε → Prop) (xs : List β) (e : ε) : Prop :=
  ∃ before x after, xs = before ++ x :: after ∧ refuses before x e ∧ NoneRefused refuses before

section Refusals

variable {refuses : List β → β → ε → Prop} {step : α → β → Except ε α} {start : α}

theorem exists_foldlM_iff_noneRefused
    (hstep : ∀ before state x e, before.foldlM step start = .ok state →
      (step state x = .error e ↔ refuses before x e)) {xs : List β} :
    (∃ last, xs.foldlM step start = .ok last) ↔ NoneRefused refuses xs := by
  constructor
  · intro h before x after e hxs hrefused
    obtain ⟨last, hlast⟩ := h
    rw [hxs, List.foldlM_append, bind_eq_ok_iff] at hlast
    obtain ⟨state, hbefore, hrest⟩ := hlast
    have hx := (hstep before state x e hbefore).mpr hrefused
    rw [List.foldlM_cons, hx] at hrest
    cases hrest
  · intro h
    cases hfold : xs.foldlM step start with
    | ok last => exact ⟨last, rfl⟩
    | error e =>
      obtain ⟨before, x, after, state, hxs, hbefore, hx⟩ := foldlM_eq_error_iff.mp hfold
      exact absurd ((hstep before state x e hbefore).mp hx) (h before x after e hxs)

theorem foldlM_eq_error_iff_firstRefused
    (hstep : ∀ before state x e, before.foldlM step start = .ok state →
      (step state x = .error e ↔ refuses before x e)) {xs : List β} {e : ε} :
    xs.foldlM step start = .error e ↔ FirstRefused refuses xs e := by
  rw [foldlM_eq_error_iff]
  constructor
  · intro h
    obtain ⟨before, x, after, state, hxs, hbefore, hx⟩ := h
    exact ⟨before, x, after, hxs, (hstep before state x e hbefore).mp hx,
      (exists_foldlM_iff_noneRefused hstep).mp ⟨state, hbefore⟩⟩
  · intro h
    obtain ⟨before, x, after, hxs, hx, hnone⟩ := h
    obtain ⟨state, hbefore⟩ := (exists_foldlM_iff_noneRefused hstep).mpr hnone
    exact ⟨before, x, after, state, hxs, hbefore, (hstep before state x e hbefore).mpr hx⟩

end Refusals

end Prefetch
