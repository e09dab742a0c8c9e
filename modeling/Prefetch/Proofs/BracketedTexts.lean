import Prefetch.Proofs.ChainReading

/-!
# Texts joined between brackets

Several texts are joined by a comma and a space and put between brackets. The commas that join them
stand at depth zero of the joined text, and every character of a text keeps its depth there. So the
members of the joined text are the members of the texts one after the other. Between the brackets
everything stands one level deeper. If no dot is thereby moved to depth zero, then reading the
bracketed text is reading its members.
-/

namespace Prefetch

/-- A text as a chain is made of: not empty, without blanks at its ends, and with as many closing
brackets as opening ones. -/
structure IsBlock (text : List Char) : Prop where
  ne_nil : text ≠ []
  trimmed : trim text = text
  balanced : netDepth text = 0

theorem IsAtom.isBlock {name : String} (h : IsAtom name) : IsBlock name.toList where
  ne_nil := by simpa using h.ne_empty
  trimmed := h.trimmed
  balanced := h.balanced

theorem IsBlock.append {s t : List Char} (hs : IsBlock s) (ht : IsBlock t) {between : List Char}
    (hbetween : netDepth between = 0) : IsBlock (s ++ between ++ t) where
  ne_nil := by simp [hs.ne_nil]
  trimmed := by
    apply trim_eq_self
    · intro c hc
      rw [List.append_assoc, List.head?_append_of_ne_nil _ hs.ne_nil] at hc
      exact isBlank_of_head?_trim (hs.trimmed.symm ▸ hc)
    · intro c hc
      rw [List.getLast?_append_of_ne_nil _ ht.ne_nil] at hc
      exact isBlank_of_getLast?_trim (ht.trimmed.symm ▸ hc)
  balanced := by
    rw [netDepth_append, netDepth_append, hs.balanced, hbetween, ht.balanced]
    rfl

theorem membersOf_of_not_mem {text : List Char} (h : (',', 0) ∉ depths 0 text) :
    membersOf text = [String.ofList (trim text)] := by
  rw [membersOf, cut_of_not_mem (by decide) h, List.map_singleton]

theorem one_lt_length_membersOf {text : List Char} (h : (',', 0) ∈ depths 0 text) :
    1 < (membersOf text).length := by
  rw [membersOf, List.length_map]
  exact one_lt_length_cut (by decide) h

theorem membersOf_append_comma {s : List Char} (hs : netDepth s = 0) (t : List Char) :
    membersOf (s ++ ',' :: t) = membersOf s ++ membersOf t := by
  rw [membersOf, cut_append_separator (by decide) (by simpa using hs), List.map_append]
  rfl

theorem membersOf_cons_space (text : List Char) : membersOf (' ' :: text) = membersOf text := by
  obtain ⟨piece, pieces, hcut⟩ := List.exists_cons_of_ne_nil (cut_ne_nil (· == ',') 0 text)
  have hcons : cut (· == ',') 0 (' ' :: text) = (' ' :: piece) :: pieces := by
    rw [cut_cons_of_ne (by decide), depthStep_of_isBlank (by decide), Int.add_zero, hcut,
      List.modifyHead_cons]
  rw [membersOf, membersOf, hcons, hcut, List.map_cons, List.map_cons,
    trim_cons_of_isBlank (by decide)]

section Joined

variable {texts : List (List Char)}

theorem netDepth_joined (h : ∀ text ∈ texts, netDepth text = 0) :
    netDepth ([',', ' '].intercalate texts) = 0 :=
  netDepth_intercalate rfl h

theorem mem_depths_joined (h : ∀ text ∈ texts, netDepth text = 0) {c : Char} {depth : Int}
    (hentry : (c, depth) ≠ (',', 0) ∧ (c, depth) ≠ (' ', 0)) :
    (c, depth) ∈ depths 0 ([',', ' '].intercalate texts) ↔
      ∃ text ∈ texts, (c, depth) ∈ depths 0 text := by
  induction texts with
  | nil => simp
  | cons first rest ih =>
    have hfirst := h first List.mem_cons_self
    have hrest := ih fun text htext => h text (List.mem_cons_of_mem _ htext)
    cases rest with
    | nil => simp
    | cons next rest =>
      have hnet : netDepth (first ++ [',', ' ']) = 0 := by
        rw [netDepth_append, hfirst]
        rfl
      have hbetween : (c, depth) ∉ depths 0 [',', ' '] := by
        have hdepths : depths 0 [',', ' '] = [(',', 0), (' ', 0)] := rfl
        rw [hdepths]
        simpa using hentry
      rw [List.intercalate_cons_cons, depths_append, depths_append, hnet, hfirst, Int.add_zero,
        List.mem_append, List.mem_append, hrest]
      simp only [hbetween, or_false, List.exists_mem_cons_iff]

theorem membersOf_joined (hne : texts ≠ []) (h : ∀ text ∈ texts, netDepth text = 0) :
    membersOf ([',', ' '].intercalate texts) = texts.flatMap membersOf := by
  induction texts with
  | nil => exact absurd rfl hne
  | cons first rest ih =>
    have hfirst := h first List.mem_cons_self
    cases rest with
    | nil => simp
    | cons next rest =>
      have hrest := ih (by simp) fun text htext => h text (List.mem_cons_of_mem _ htext)
      have hjoin : [',', ' '].intercalate (first :: next :: rest) =
          first ++ ',' :: ' ' :: [',', ' '].intercalate (next :: rest) := by
        simp
      rw [hjoin, membersOf_append_comma hfirst, membersOf_cons_space, hrest]
      rfl

end Joined

def bracketed (text : List Char) : List Char := '[' :: text ++ [']']

theorem head?_bracketed (text : List Char) : (bracketed text).head? = some '[' := rfl

theorem getLast?_bracketed (text : List Char) : (bracketed text).getLast? = some ']' :=
  List.getLast?_concat

theorem netDepth_bracketed (text : List Char) : netDepth (bracketed text) = netDepth text := by
  have hclose : netDepth [']'] = -1 := rfl
  have hopen : depthStep '[' = 1 := rfl
  rw [bracketed, List.cons_append, netDepth, netDepth_append, hclose, hopen]
  omega

theorem depths_bracketed {text : List Char} (h : netDepth text = 0) (start : Int) :
    depths start (bracketed text) =
      ('[', start) :: (depths (start + 1) text ++ [(']', start + 1)]) := by
  rw [bracketed, List.cons_append, depths, depths_append, h, Int.add_zero]
  rfl

theorem mem_depths_bracketed {text : List Char} (h : netDepth text = 0) {c : Char}
    (hc : c ≠ '[' ∧ c ≠ ']') {depth : Int} :
    (c, depth) ∈ depths 0 (bracketed text) ↔ (c, depth - 1) ∈ depths 0 text := by
  rw [depths_bracketed h, List.mem_cons, List.mem_append, mem_depths_add, List.mem_singleton]
  simp [hc.1, hc.2]

/-- Between brackets the characters of joined texts stand one level deeper than in these texts, but
for the commas and spaces that join them. -/
theorem mem_depths_bracketed_joined {texts : List (List Char)}
    (h : ∀ text ∈ texts, netDepth text = 0) {c : Char} (hc : c ≠ '[' ∧ c ≠ ']') {depth : Int}
    (hentry : (c, depth - 1) ≠ (',', 0) ∧ (c, depth - 1) ≠ (' ', 0)) :
    (c, depth) ∈ depths 0 (bracketed ([',', ' '].intercalate texts)) ↔
      ∃ text ∈ texts, (c, depth - 1) ∈ depths 0 text := by
  rw [mem_depths_bracketed (netDepth_joined h) hc, mem_depths_joined h hentry]

theorem isBlock_bracketed {text : List Char} (h : netDepth text = 0) :
    IsBlock (bracketed text) where
  ne_nil := by simp [bracketed]
  trimmed := by
    apply trim_eq_self
    · intro c hc
      rw [head?_bracketed] at hc
      cases hc
      decide
    · intro c hc
      rw [getLast?_bracketed] at hc
      cases hc
      decide
  balanced := by rw [netDepth_bracketed, h]

theorem kind_bracketed {token : String} {text : List Char} (h : token.toList = bracketed text) :
    (Token.classify token).kind = .array := by
  have hlength : 2 ≤ (bracketed text).length := by simp [bracketed]
  simp only [Token.classify, Token.kindOf, h]
  exact if_pos ⟨hlength, head?_bracketed text, getLast?_bracketed text⟩

theorem interior_bracketed {token : String} {text : List Char}
    (h : token.toList = bracketed text) : (Token.interior token).toList = text := by
  rw [Token.interior, String.toList_ofList, h]
  simp [bracketed]

/-- Reading a bracketed text is reading its members, if no dot in it stands at depth zero. -/
theorem readChain_bracketed_iff {source : String} {text : List Char} {forest : List Node}
    (hsource : source.toList = bracketed text) (hnet : netDepth text = 0)
    (hdot : ('.', 0) ∉ depths 0 source.toList) :
    readChain source = .ok forest ↔
      ∃ forests, List.Forall₂ (fun part forest => readChain part = .ok forest)
          (membersOf text) forests ∧ forest = forests.flatten := by
  have hblock := hsource ▸ isBlock_bracketed hnet
  have htokens : splitChain source = .ok [source] := by
    refine splitOutside_eq_ok_iff.mpr ⟨hblock.balanced, ?_⟩
    rw [cut_of_not_mem (by decide) hdot, List.map_singleton, hblock.trimmed, String.ofList_toList]
  have hparts : splitMembers (Token.interior source) = .ok (membersOf text) := by
    rw [splitMembers_eq_ok_iff, interior_bracketed hsource]
    exact ⟨hnet, rfl⟩
  have hlink : ∀ link, readLink source = .ok link ↔
      ∃ forests, List.Forall₂ (fun part forest => readChain part = .ok forest)
          (membersOf text) forests ∧ link = .group forests.flatten :=
    fun link => readLink_eq_ok_iff_of_split (kind_bracketed hsource) hparts
  rw [readChain_eq_ok_iff_of_split htokens]
  constructor
  · rintro ⟨links, hlinks, rfl⟩
    obtain ⟨link, hread, rfl⟩ : ∃ link, readLink source = .ok link ∧ links = [link] := by
      simpa [List.forall₂_cons_left_iff] using hlinks
    obtain ⟨forests, hforests, rfl⟩ := (hlink link).mp hread
    exact ⟨forests, hforests, by simp⟩
  · rintro ⟨forests, hforests, rfl⟩
    refine ⟨[.group forests.flatten], .cons ?_ .nil, by simp⟩
    exact (hlink _).mpr ⟨forests, hforests, rfl⟩

end Prefetch
