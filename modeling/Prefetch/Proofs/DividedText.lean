import Prefetch.Proofs.PaddedText
import Prefetch.Proofs.ReadingOutcome

/-!
# The one way to divide a text

A text with as many closing as opening brackets can be divided at a separator in exactly one way,
if every piece is to have as many closing as opening brackets and the separator is to stand in no
piece behind an equal number of both. Splitting finds these pieces and trims them. The depth that
splitting keeps is counted from the start of the text, but at a separator that divides it is zero,
so it is also the depth counted from the start of the piece.
-/

namespace Prefetch

/-- The text has as many closing brackets as opening ones. -/
def IsEven (text : List Char) : Prop := text.count '[' = text.count ']'

theorem isEven_iff {text : List Char} : IsEven text ↔ netDepth text = 0 := by
  rw [IsEven, netDepth_eq_count_sub_count]
  omega

/-- The pieces give the text when they are joined by the separator. All of them are even, and none
can be divided further: the part of a piece before a separator in it is not even. -/
structure Divides (separator : Char) (text : String) (pieces : List String) : Prop where
  ne_nil : pieces ≠ []
  joined : (String.singleton separator).intercalate pieces = text
  even : ∀ piece ∈ pieces, IsEven piece.toList
  whole : ∀ piece ∈ pieces, ∀ before after,
    piece.toList = before ++ separator :: after → ¬ IsEven before

theorem matchesSeparator_singleton (separator : Char) :
    matchesSeparator (String.singleton separator) = (· == separator) := by
  funext c
  rw [matchesSeparator, String.toList_singleton]
  by_cases hc : c = separator
  · simp [hc]
  · simp [hc, Ne.symm hc]

section Pieces

variable {separator : Char}

theorem depthStep_eq_zero {c : Char} (hopen : c ≠ '[') (hclose : c ≠ ']') : depthStep c = 0 := by
  rw [depthStep, if_neg hopen, if_neg hclose]

theorem not_mem_depths_iff {text : List Char} :
    (separator, 0) ∉ depths 0 text ↔
      ∀ before after, text = before ++ separator :: after → ¬ IsEven before := by
  rw [mem_depths_iff]
  constructor
  · intro h before after htext heven
    exact h ⟨before, after, htext, by rw [isEven_iff.mp heven]; rfl⟩
  · intro h hmem
    obtain ⟨before, after, htext, hdepth⟩ := hmem
    apply h before after htext
    rw [isEven_iff]
    omega

theorem cut_intercalate (hsep : depthStep separator = 0) {pieces : List (List Char)}
    (hne : pieces ≠ [])
    (h : ∀ piece ∈ pieces, netDepth piece = 0 ∧ (separator, 0) ∉ depths 0 piece) :
    cut (· == separator) 0 ([separator].intercalate pieces) = pieces := by
  induction pieces with
  | nil => exact absurd rfl hne
  | cons first rest ih =>
    obtain ⟨hnet, hfree⟩ := h first List.mem_cons_self
    cases rest with
    | nil => rw [List.intercalate_singleton, cut_of_not_mem hsep hfree]
    | cons next rest =>
      have hrest := ih (by simp) fun piece hpiece => h piece (List.mem_cons_of_mem _ hpiece)
      rw [List.intercalate_cons_cons, List.append_assoc, List.singleton_append,
        cut_append_separator hsep (by simpa using hnet), hrest, cut_of_not_mem hsep hfree]
      rfl

/-- A text that can be divided is even, and its pieces are those between the separators at depth
zero. -/
theorem divides_iff (hsep : depthStep separator = 0) {text : String} {pieces : List String} :
    Divides separator text pieces ↔
      IsEven text.toList ∧ pieces = (cut (· == separator) 0 text.toList).map String.ofList := by
  constructor
  · intro h
    have hspec : ∀ piece ∈ pieces.map String.toList,
        netDepth piece = 0 ∧ (separator, 0) ∉ depths 0 piece := by
      intro raw hraw
      obtain ⟨piece, hpiece, rfl⟩ := List.mem_map.mp hraw
      exact ⟨isEven_iff.mp (h.even piece hpiece), not_mem_depths_iff.mpr (h.whole piece hpiece)⟩
    have htext : text.toList = [separator].intercalate (pieces.map String.toList) := by
      rw [← h.joined, String.toList_intercalate, String.toList_singleton]
    constructor
    · rw [isEven_iff, htext]
      apply netDepth_intercalate (by simpa [netDepth] using hsep)
      intro piece hpiece
      exact (hspec piece hpiece).1
    · rw [htext, cut_intercalate hsep (by simpa using h.ne_nil) hspec, List.map_map]
      simp
  · intro h
    obtain ⟨heven, rfl⟩ := h
    have hspec : ∀ raw ∈ cut (· == separator) 0 text.toList,
        netDepth raw = 0 ∧ (separator, 0) ∉ depths 0 raw :=
      fun _ hraw => mem_cut_spec hsep (isEven_iff.mp heven) hraw
    refine ⟨by simp [cut_ne_nil], ?_, ?_, ?_⟩
    · rw [← String.toList_inj, String.toList_intercalate, String.toList_singleton, List.map_map]
      simp [intercalate_cut hsep]
    · intro piece hpiece
      obtain ⟨raw, hraw, rfl⟩ := List.mem_map.mp hpiece
      rw [String.toList_ofList]
      exact isEven_iff.mpr (hspec raw hraw).1
    · intro piece hpiece
      obtain ⟨raw, hraw, rfl⟩ := List.mem_map.mp hpiece
      rw [String.toList_ofList]
      exact not_mem_depths_iff.mp (hspec raw hraw).2

end Pieces

/-- Splitting refuses exactly the texts that are not even. Any other text is divided by the
separator into pieces in one way only, and the outcome of splitting is these pieces, each without
the blanks at its ends. -/
theorem splitOutside_pieces (separator : Char) (hopen : separator ≠ '[')
    (hclose : separator ≠ ']') (text : String) :
    (∀ e, splitOutside (matchesSeparator (String.singleton separator)) text = .error e ↔
      e = ⟨text⟩ ∧ text.toList.count '[' ≠ text.toList.count ']') ∧
    (text.toList.count '[' = text.toList.count ']' →
      (∃! pieces, Divides separator text pieces) ∧
      ∀ pieces, Divides separator text pieces →
        splitOutside (matchesSeparator (String.singleton separator)) text =
          .ok (pieces.map fun piece => String.ofList (trim piece.toList))) := by
  have hsep := depthStep_eq_zero hopen hclose
  rw [matchesSeparator_singleton]
  constructor
  · intro e
    have heven : netDepth text.toList ≠ 0 ↔ text.toList.count '[' ≠ text.toList.count ']' :=
      not_congr isEven_iff.symm
    rw [splitOutside_eq_error_iff, heven, and_comm]
  · intro heven
    constructor
    · refine ⟨_, (divides_iff hsep).mpr ⟨heven, rfl⟩, ?_⟩
      intro others hothers
      exact ((divides_iff hsep).mp hothers).2
    · intro pieces hpieces
      obtain ⟨-, rfl⟩ := (divides_iff hsep).mp hpieces
      rw [splitOutside_eq_ok_iff, List.map_map]
      refine ⟨isEven_iff.mp heven, ?_⟩
      simp

/-- The first dot stands below depth zero and the third one above it, so only the second divides. -/
theorem splitOutside_pieces_below_zero :
    let text := " ].[ . a[1.2]"
    '.' ≠ '[' ∧ '.' ≠ ']' ∧ text.toList.count '[' = text.toList.count ']' ∧
    Divides '.' text [" ].[ ", " a[1.2]"] ∧
    splitOutside (matchesSeparator (String.singleton '.')) text = .ok ["].[", "a[1.2]"] := by
  intro text
  have heven : text.toList.count '[' = text.toList.count ']' := by decide
  have hpieces : Divides '.' text [" ].[ ", " a[1.2]"] :=
    (divides_iff (by decide)).mpr ⟨heven, by decide⟩
  obtain ⟨-, hsplit⟩ := splitOutside_pieces '.' (by decide) (by decide) text
  refine ⟨by decide, by decide, heven, hpieces, ?_⟩
  rw [(hsplit heven).2 _ hpieces]
  decide

end Prefetch
