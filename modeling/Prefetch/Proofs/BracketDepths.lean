import Prefetch.BracketSplit
import Prefetch.Proofs.TrimmedText
import Mathlib.Algebra.GroupWithZero.Nat

/-!
# The depth at which a character stands

Every character of a text stands at a bracket depth: the opening brackets before it less the
closing ones. Cutting a text at a separator leaves pieces that add up to depth zero and in which
the separator does not stand at depth zero. A text with no separator at depth zero is one piece,
and a separator at depth zero cuts the text into the pieces before it and those after it. Trimming
takes blanks away and nothing else, so it moves no bracket and no separator to another depth.
-/

namespace Prefetch

/-- The characters of a text with the depth at which they stand, when the text starts at the given
depth. -/
def depths (start : Int) : List Char → List (Char × Int)
  | [] => []
  | c :: text => (c, start) :: depths (start + depthStep c) text

@[simp] theorem depths_nil (start : Int) : depths start [] = [] := rfl

theorem depths_append (start : Int) (s t : List Char) :
    depths start (s ++ t) = depths start s ++ depths (start + netDepth s) t := by
  induction s generalizing start with
  | nil => simp
  | cons c s ih =>
    simp only [List.cons_append, depths, netDepth, ih]
    rw [Int.add_assoc]

theorem mem_depths_iff {start depth : Int} {c : Char} {text : List Char} :
    (c, depth) ∈ depths start text ↔
      ∃ s t, text = s ++ c :: t ∧ start + netDepth s = depth := by
  induction text generalizing start with
  | nil => simp
  | cons first text ih =>
    simp only [depths, List.mem_cons, Prod.mk.injEq, ih]
    constructor
    · rintro (⟨rfl, rfl⟩ | ⟨s, t, rfl, hs⟩)
      · exact ⟨[], text, rfl, by simp⟩
      · exact ⟨first :: s, t, rfl, by simp only [netDepth]; omega⟩
    · rintro ⟨s, t, htext, hs⟩
      cases s with
      | nil =>
        obtain ⟨rfl, rfl⟩ := List.cons.inj htext
        exact .inl ⟨rfl, by simpa using hs.symm⟩
      | cons c' s =>
        obtain ⟨rfl, rfl⟩ := List.cons.inj htext
        exact .inr ⟨s, t, rfl, by simp only [netDepth] at hs; omega⟩

theorem mem_depths_add {start shift depth : Int} {c : Char} {text : List Char} :
    (c, depth) ∈ depths (start + shift) text ↔ (c, depth - shift) ∈ depths start text := by
  simp only [mem_depths_iff]
  constructor
  · rintro ⟨s, t, rfl, hs⟩
    exact ⟨s, t, rfl, by omega⟩
  · rintro ⟨s, t, rfl, hs⟩
    exact ⟨s, t, rfl, by omega⟩

theorem netDepth_eq_zero {text : List Char} (h : ∀ c ∈ text, depthStep c = 0) :
    netDepth text = 0 := by
  induction text with
  | nil => rfl
  | cons c text ih =>
    have hc := h c List.mem_cons_self
    have hrest := ih fun c' hc' => h c' (List.mem_cons_of_mem _ hc')
    simp [netDepth, hc, hrest]

theorem netDepth_intercalate {between : List Char} (hbetween : netDepth between = 0)
    {texts : List (List Char)} (h : ∀ text ∈ texts, netDepth text = 0) :
    netDepth (between.intercalate texts) = 0 := by
  induction texts with
  | nil => rfl
  | cons first rest ih =>
    have hfirst := h first List.mem_cons_self
    have hrest := ih fun text htext => h text (List.mem_cons_of_mem _ htext)
    cases rest with
    | nil => simpa using hfirst
    | cons next rest =>
      rw [List.intercalate_cons_cons, netDepth_append, netDepth_append, hfirst, hbetween, hrest]
      rfl

section Cut

variable {separator : Char}

theorem cut_cons_separator (hsep : depthStep separator = 0) (text : List Char) :
    cut (· == separator) 0 (separator :: text) = [] :: cut (· == separator) 0 text := by
  simp [cut, hsep]

theorem cut_cons_of_ne {depth : Int} {c : Char} (h : ¬ (c = separator ∧ depth = 0))
    (text : List Char) :
    cut (· == separator) depth (c :: text) =
      (cut (· == separator) (depth + depthStep c) text).modifyHead (c :: ·) := by
  have hcond : ¬ (depthStep c = 0 ∧ (c == separator) = true ∧ depth = 0) := by
    rintro ⟨-, hc, hdepth⟩
    exact h ⟨by simpa using hc, hdepth⟩
  rw [cut, if_neg hcond]

/-- The pieces of a text by its first character. A separator at depth zero ends an empty piece, and
any other character joins the first piece of what is behind it. -/
theorem cut_cons_cases (hsep : depthStep separator = 0) (depth : Int) (c : Char)
    (text : List Char) :
    ∃ first rest,
      (c = separator ∧ depth = 0 ∧ cut (· == separator) 0 text = first :: rest ∧
        cut (· == separator) depth (c :: text) = [] :: first :: rest) ∨
      (¬ (c = separator ∧ depth = 0) ∧
        cut (· == separator) (depth + depthStep c) text = first :: rest ∧
        cut (· == separator) depth (c :: text) = (c :: first) :: rest) := by
  by_cases hc : c = separator ∧ depth = 0
  · obtain ⟨rfl, rfl⟩ := hc
    obtain ⟨first, rest, hcut⟩ := List.exists_cons_of_ne_nil (cut_ne_nil (· == c) 0 text)
    exact ⟨first, rest, .inl ⟨rfl, rfl, hcut, by rw [cut_cons_separator hsep, hcut]⟩⟩
  · obtain ⟨first, rest, hcut⟩ :=
      List.exists_cons_of_ne_nil (cut_ne_nil (· == separator) (depth + depthStep c) text)
    exact ⟨first, rest, .inr ⟨hc, hcut, by rw [cut_cons_of_ne hc, hcut, List.modifyHead_cons]⟩⟩

theorem cut_append_separator (hsep : depthStep separator = 0) {depth : Int} {s : List Char}
    (hs : depth + netDepth s = 0) (t : List Char) :
    cut (· == separator) depth (s ++ separator :: t) =
      cut (· == separator) depth s ++ cut (· == separator) 0 t := by
  induction s generalizing depth with
  | nil =>
    have hdepth : depth = 0 := by simpa using hs
    subst hdepth
    exact cut_cons_separator hsep t
  | cons c s ih =>
    have hrest : depth + depthStep c + netDepth s = 0 := by
      simp only [netDepth] at hs
      omega
    by_cases hc : c = separator ∧ depth = 0
    · obtain ⟨rfl, rfl⟩ := hc
      rw [List.cons_append, cut_cons_separator hsep, cut_cons_separator hsep, List.cons_append]
      rw [hsep, Int.add_zero] at hrest
      rw [ih hrest]
    · obtain ⟨first, rest, hcut⟩ :=
        List.exists_cons_of_ne_nil (cut_ne_nil (· == separator) (depth + depthStep c) s)
      rw [List.cons_append, cut_cons_of_ne hc, cut_cons_of_ne hc, ih hrest, hcut]
      rfl

theorem cut_of_not_mem (hsep : depthStep separator = 0) {depth : Int} {text : List Char}
    (h : (separator, 0) ∉ depths depth text) : cut (· == separator) depth text = [text] := by
  induction text generalizing depth with
  | nil => rfl
  | cons c text ih =>
    simp only [depths, List.mem_cons, not_or] at h
    have hc : ¬ (c = separator ∧ depth = 0) := by
      rintro ⟨rfl, rfl⟩
      exact h.1 rfl
    rw [cut_cons_of_ne hc, ih h.2]
    rfl

theorem one_lt_length_cut (hsep : depthStep separator = 0) {depth : Int} {text : List Char}
    (h : (separator, 0) ∈ depths depth text) : 1 < (cut (· == separator) depth text).length := by
  obtain ⟨s, t, rfl, hs⟩ := mem_depths_iff.mp h
  have hbefore := List.length_pos_iff.mpr (cut_ne_nil (· == separator) depth s)
  have hafter := List.length_pos_iff.mpr (cut_ne_nil (· == separator) 0 t)
  rw [cut_append_separator hsep hs, List.length_append]
  omega

/-- When a text adds up to depth zero, then so does every piece of it, and the separator does not
stand at depth zero in a piece. The first piece starts where the text starts. -/
theorem cut_cons_spec (hsep : depthStep separator = 0) {depth : Int} {text : List Char}
    (htext : depth + netDepth text = 0) {first : List Char} {rest : List (List Char)}
    (h : cut (· == separator) depth text = first :: rest) :
    (depth + netDepth first = 0 ∧ (separator, 0) ∉ depths depth first) ∧
      ∀ piece ∈ rest, netDepth piece = 0 ∧ (separator, 0) ∉ depths 0 piece := by
  induction text generalizing depth first rest with
  | nil =>
    cases h
    simpa using htext
  | cons c text ih =>
    have hrest : depth + depthStep c + netDepth text = 0 := by
      simp only [netDepth] at htext
      omega
    obtain ⟨first', rest', ⟨rfl, rfl, hcut, hcons⟩ | ⟨hc, hcut, hcons⟩⟩ :=
      cut_cons_cases hsep depth c text
    · rw [hcons] at h
      obtain ⟨rfl, rfl⟩ := List.cons.inj h
      rw [hsep] at hrest
      obtain ⟨hfirst, hpieces⟩ := ih hrest hcut
      refine ⟨by simp, ?_⟩
      intro piece hpiece
      rcases List.mem_cons.mp hpiece with rfl | hpiece
      · simpa using hfirst
      · exact hpieces piece hpiece
    · rw [hcons] at h
      obtain ⟨rfl, rfl⟩ := List.cons.inj h
      obtain ⟨⟨hnet, hfree⟩, hpieces⟩ := ih hrest hcut
      refine ⟨⟨?_, ?_⟩, hpieces⟩
      · simp only [netDepth]
        omega
      · simp only [depths, List.mem_cons, not_or]
        refine ⟨fun heq => ?_, hfree⟩
        exact hc ⟨(Prod.mk.inj heq).1.symm, (Prod.mk.inj heq).2.symm⟩

theorem mem_cut_spec (hsep : depthStep separator = 0) {text piece : List Char}
    (htext : netDepth text = 0) (h : piece ∈ cut (· == separator) 0 text) :
    netDepth piece = 0 ∧ (separator, 0) ∉ depths 0 piece := by
  obtain ⟨first, rest, hcut⟩ := List.exists_cons_of_ne_nil (cut_ne_nil (· == separator) 0 text)
  obtain ⟨hfirst, hrest⟩ := cut_cons_spec hsep (by simpa using htext) hcut
  rw [hcut] at h
  rcases List.mem_cons.mp h with rfl | h
  · simpa using hfirst
  · exact hrest piece h

/-- Cutting loses the separators between the pieces and no other character. -/
theorem sum_count_cut (separator : Char) (hsep : depthStep separator = 0) (c : Char)
    (depth : Int) (text : List Char) :
    ((cut (· == separator) depth text).map fun piece =>
        piece.count c + if c = separator then 1 else 0).sum =
      text.count c + if c = separator then 1 else 0 := by
  induction text generalizing depth with
  | nil => simp [cut]
  | cons first text ih =>
    obtain ⟨piece, pieces, ⟨rfl, rfl, hcut, hcons⟩ | ⟨-, hcut, hcons⟩⟩ :=
      cut_cons_cases hsep depth first text
    · have hrest := ih 0
      rw [hcut] at hrest
      rw [hcons, List.map_cons, List.sum_cons, hrest, List.count_cons]
      by_cases hc : c = first
      · simp [hc]
        omega
      · simp [hc, Ne.symm hc]
    · have hrest := ih (depth + depthStep first)
      rw [hcut, List.map_cons, List.sum_cons] at hrest
      rw [hcons, List.map_cons, List.sum_cons, List.count_cons, List.count_cons]
      omega

end Cut

theorem depthStep_of_isBlank {c : Char} (h : isBlank c = true) : depthStep c = 0 := by
  have hopen : c ≠ '[' := by
    rintro rfl
    exact absurd h (by decide)
  have hclose : c ≠ ']' := by
    rintro rfl
    exact absurd h (by decide)
  simp [depthStep, hopen, hclose]

theorem netDepth_trim (text : List Char) : netDepth (trim text) = netDepth text := by
  obtain ⟨before, after, htext, hbefore, hafter⟩ := exists_append_trim text
  have hb := netDepth_eq_zero fun c hc => depthStep_of_isBlank (hbefore c hc)
  have ha := netDepth_eq_zero fun c hc => depthStep_of_isBlank (hafter c hc)
  conv_rhs => rw [htext]
  rw [netDepth_append, netDepth_append, hb, ha]
  omega

theorem mem_depths_of_trim {start : Int} {text : List Char} {entry : Char × Int}
    (h : entry ∈ depths start (trim text)) : entry ∈ depths start text := by
  obtain ⟨before, after, htext, hbefore, -⟩ := exists_append_trim text
  have hb := netDepth_eq_zero fun c hc => depthStep_of_isBlank (hbefore c hc)
  rw [htext, depths_append, depths_append, hb, Int.add_zero]
  exact List.mem_append_left _ (List.mem_append_right _ h)

end Prefetch
