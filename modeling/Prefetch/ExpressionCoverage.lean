import Prefetch.Expression

/-!
# Coverage between expressions

`f.covers r` compares two expressions root by root: every relation that `r` selects has to be
selected by `f`, and the comparison goes on behind it. The names of `r` are taken in order, and
the first one that repeats itself on both sides settles the whole comparison: the names after it
are not looked at.

The two expressions together lose at least one node at every step, although descending into `*` or
into a repeating relation alone gives back an expression of the same size.
-/

namespace Prefetch

namespace Expression

/-- A relation that repeats itself in `r`, and that `f` follows without end too. -/
def settles (f r : Expression) (name : String) : Bool :=
  r.repeats name && (f.selectsAll || f.repeats name)

/-- Behind a name that does not settle the comparison, the two expressions are smaller taken
together. -/
theorem size_add_size_lt {f r own sub : Expression} {name : String}
    (hall : r.selectsAll = false) (hs : f.settles r name = false)
    (hown : f.step name = some own) (hsub : r.step name = some sub) :
    own.size + sub.size < f.size + r.size := by
  have hown' := size_step_le hown
  have hsub' := size_step_le hsub
  cases hr : r.repeats name with
  | false =>
    have := size_step_lt hall hr hsub
    omega
  | true =>
    simp only [settles, hr, Bool.true_and, Bool.or_eq_false_iff] at hs
    have := size_step_lt hs.1 hs.2 hown
    omega

set_option linter.unusedVariables false in
mutual

/-- Whether what `r` selects is selected by `f` as well. -/
def covers (f r : Expression) : Bool :=
  match hall : r.selectsAll with
  | true => f.selectsAll
  | false => coversNames f r hall r.rootNames
termination_by (f.size + r.size, r.rootNames.length + 1)

def coversNames (f r : Expression) (hall : r.selectsAll = false) : List String → Bool
  | [] => true
  | name :: names =>
    match hs : f.settles r name with
    | true => true
    | false =>
      match hown : f.step name, hsub : r.step name with
      | some own, some sub => own.covers sub && coversNames f r hall names
      | _, _ => false
termination_by names => (f.size + r.size, names.length)
decreasing_by
  · exact .left _ _ (size_add_size_lt hall hs hown hsub)
  · exact .right _ (Nat.lt_succ_self _)

end

theorem covers_of_selectsAll {f r : Expression} (hall : r.selectsAll = true) :
    f.covers r = f.selectsAll := by
  rw [covers]
  split <;> simp_all

theorem covers_of_not_selectsAll {f r : Expression} (hall : r.selectsAll = false) :
    f.covers r = f.coversNames r hall r.rootNames := by
  rw [covers]
  split <;> simp_all

@[simp] theorem coversNames_nil {f r : Expression} (hall : r.selectsAll = false) :
    f.coversNames r hall [] = true := by
  rw [coversNames]

theorem coversNames_cons {f r : Expression} (hall : r.selectsAll = false) (name : String)
    (names : List String) :
    f.coversNames r hall (name :: names) =
      (f.settles r name ||
        match f.step name, r.step name with
        | some own, some sub => own.covers sub && f.coversNames r hall names
        | _, _ => false) := by
  rw [coversNames]
  split <;> rename_i hs
  · simp [hs]
  · rw [hs, Bool.false_or]
    split
    case h_1 own sub hown hsub => rw [hown, hsub]
    case h_2 hnone =>
      split
      case h_1 own sub hown hsub => exact absurd hsub (hnone own sub hown)
      case h_2 => rfl

end Expression

end Prefetch
