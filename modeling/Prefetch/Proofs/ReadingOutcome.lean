import Prefetch.Proofs.NestedNames
import Prefetch.Proofs.PairedBrackets
import Mathlib.Logic.Relation

/-!
# What reading a text comes to

A text is either read as an expression or refused as a whole. What is refused, and why, is decided
by the chains that are read on the way: the text itself, the parts of its arrays, the parts of the
arrays in these, and so on. Every piece of a balanced text is balanced, and so is what stands
between the brackets of an array. So the brackets can fail to balance only in the text as a whole,
and any other refusal comes from a blank token of one of the chains. Every part is shorter than the
chain that it belongs to.

A text that is accepted and not empty has at least one root, and each of its names is read back as
that one name.
-/

namespace Prefetch

/-- The part is a member of an array that stands as a token in the chain. -/
inductive HasPart (chain : String) : String → Prop where
  | member {tokens token content parts part} (htokens : splitChain chain = .ok tokens)
      (htoken : token ∈ tokens) (hcontent : (Token.classify token).content = .ok content)
      (hparts : splitMembers content = .ok parts) (hpart : part ∈ parts) : HasPart chain part

/-- One of the tokens of the chain is blank. -/
def HasBlankToken (chain : String) : Prop :=
  ∃ tokens, splitChain chain = .ok tokens ∧ "" ∈ tokens

theorem Token.content_classify_eq_ok_iff {token content : String} :
    (Token.classify token).content = .ok content ↔
      (Token.classify token).kind = .array ∧ content = Token.interior token := by
  rw [Token.content]
  cases (Token.classify token).kind with
  | plain => simp
  | array => simp [eq_comm]

theorem exists_splitOutside_iff {isSeparator : Char → Bool} {text : String} :
    (∃ pieces, splitOutside isSeparator text = .ok pieces) ↔ netDepth text.toList = 0 := by
  constructor
  · intro h
    obtain ⟨pieces, hpieces⟩ := h
    exact (splitOutside_eq_ok_iff.mp hpieces).1
  · intro h
    exact ⟨_, splitOutside_eq_ok_iff.mpr ⟨h, rfl⟩⟩

theorem splitOutside_eq_error_iff {isSeparator : Char → Bool} {text : String} {e : Unbalanced} :
    splitOutside isSeparator text = .error e ↔ netDepth text.toList ≠ 0 ∧ e = ⟨text⟩ := by
  rw [splitOutside]
  by_cases h : netDepth text.toList = 0
  · simp [h]
  · simp [h, eq_comm]

theorem balanced_interior {token : String} (hkind : (Token.classify token).kind = .array)
    (h : netDepth token.toList = 0) : netDepth (Token.interior token).toList = 0 := by
  obtain ⟨inner, hinner⟩ := exists_bracketed_of_kind hkind
  rw [hinner, netDepth_bracketed] at h
  rw [interior_bracketed hinner]
  exact h

namespace HasPart

variable {chain part : String}

theorem of_array {token : String} {tokens parts : List String}
    (htokens : splitChain chain = .ok tokens) (htoken : token ∈ tokens)
    (hkind : (Token.classify token).kind = .array)
    (hparts : splitMembers (Token.interior token) = .ok parts) (hpart : part ∈ parts) :
    HasPart chain part :=
  .member htokens htoken (Token.content_classify_eq_ok_iff.mpr ⟨hkind, rfl⟩) hparts hpart

theorem length_lt (h : HasPart chain part) : part.length < chain.length := by
  cases h with
  | member htokens htoken hcontent hparts hpart =>
    obtain ⟨hkind, rfl⟩ := Token.content_classify_eq_ok_iff.mp hcontent
    have hlt := length_member_lt hkind hparts hpart
    have hle := length_token_le htokens htoken
    omega

theorem balanced_chain (h : HasPart chain part) : netDepth chain.toList = 0 := by
  cases h with
  | member htokens => exact (splitOutside_eq_ok_iff.mp htokens).1

theorem balanced (h : HasPart chain part) : netDepth part.toList = 0 := by
  cases h with
  | member htokens htoken hcontent hparts hpart =>
    exact balanced_of_mem_splitOutside (by decide) hparts hpart

theorem exists_readChain (h : HasPart chain part) {forest : List Node}
    (hread : readChain chain = .ok forest) : ∃ inner, readChain part = .ok inner := by
  cases h with
  | member htokens htoken hcontent hparts hpart =>
    obtain ⟨hkind, rfl⟩ := Token.content_classify_eq_ok_iff.mp hcontent
    obtain ⟨links, hlinks, -⟩ := (readChain_eq_ok_iff_of_split htokens).mp hread
    obtain ⟨link, -, hlink⟩ := exists_of_mem_left hlinks htoken
    obtain ⟨forests, hforests, -⟩ := (readLink_eq_ok_iff_of_split hkind hparts).mp hlink
    obtain ⟨inner, -, hinner⟩ := exists_of_mem_left hforests hpart
    exact ⟨inner, hinner⟩

end HasPart

theorem exists_parts_of_array {chain token : String} {tokens : List String}
    (htokens : splitChain chain = .ok tokens) (htoken : token ∈ tokens)
    (hkind : (Token.classify token).kind = .array) :
    ∃ content parts, (Token.classify token).content = .ok content ∧
      splitMembers content = .ok parts ∧ ∀ part ∈ parts, HasPart chain part := by
  have hbalanced := balanced_interior hkind
    (balanced_of_mem_splitOutside (by decide) htokens htoken)
  obtain ⟨parts, hparts⟩ := exists_splitOutside_iff.mpr hbalanced
  exact ⟨Token.interior token, parts, Token.content_classify_eq_ok_iff.mpr ⟨hkind, rfl⟩, hparts,
    fun _ hpart => .of_array htokens htoken hkind hparts hpart⟩

theorem HasBlankToken.balanced {chain : String} (h : HasBlankToken chain) :
    netDepth chain.toList = 0 := by
  obtain ⟨tokens, htokens, -⟩ := h
  exact (splitOutside_eq_ok_iff.mp htokens).1

theorem readLink_empty : readLink "" = .error .blankName := by
  have hkind : (Token.classify "").kind = .plain := by decide
  rw [readLink_eq, hkind]
  rfl

theorem not_hasBlankToken_of_readChain {chain : String} {forest : List Node}
    (hread : readChain chain = .ok forest) : ¬ HasBlankToken chain := by
  intro h
  obtain ⟨tokens, htokens, hblank⟩ := h
  obtain ⟨links, hlinks, -⟩ := (readChain_eq_ok_iff_of_split htokens).mp hread
  obtain ⟨link, -, hlink⟩ := exists_of_mem_left hlinks hblank
  rw [readLink_empty] at hlink
  cases hlink

/-- Why a token is refused: it is blank, or it is an array with a part that is refused. -/
theorem readLink_error_cases {token : String} (hbalanced : netDepth token.toList = 0)
    {r : Rejection} (h : readLink token = .error r) :
    (token = "" ∧ r = .blankName) ∨
    ∃ parts part, (Token.classify token).kind = .array ∧
      splitMembers (Token.interior token) = .ok parts ∧ part ∈ parts ∧
      readChain part = .error r := by
  rw [readLink_eq] at h
  cases hkind : (Token.classify token).kind with
  | plain =>
    rw [hkind] at h
    by_cases hempty : token = ""
    · simp only [hempty, if_true, Except.error.injEq] at h
      exact .inl ⟨hempty, h.symm⟩
    · simp [hempty] at h
  | array =>
    obtain ⟨parts, hparts⟩ :=
      exists_splitOutside_iff.mpr (balanced_interior hkind hbalanced)
    rw [hkind, show splitMembers (Token.interior token) = .ok parts from hparts] at h
    obtain ⟨part, hpart, hrefused⟩ := exists_of_mapM_eq_error (map_eq_error_iff.mp h)
    exact .inr ⟨parts, part, rfl, hparts, hpart, hrefused⟩

/-- Why a chain is refused: it is not balanced, one of its tokens is blank, or one of its parts is
refused. -/
theorem readChain_error_cases {chain : String} {r : Rejection}
    (h : readChain chain = .error r) :
    (netDepth chain.toList ≠ 0 ∧ r = .unbalanced chain) ∨
    (HasBlankToken chain ∧ r = .blankName) ∨
    ∃ part, HasPart chain part ∧ readChain part = .error r := by
  rw [readChain_eq] at h
  cases htokens : splitChain chain with
  | error e =>
    obtain ⟨hnet, rfl⟩ := splitOutside_eq_error_iff.mp htokens
    rw [htokens] at h
    cases h
    exact .inl ⟨hnet, rfl⟩
  | ok tokens =>
    rw [htokens] at h
    obtain ⟨token, htoken, hrefused⟩ := exists_of_mapM_eq_error (map_eq_error_iff.mp h)
    have hbalanced := balanced_of_mem_splitOutside (by decide) htokens htoken
    rcases readLink_error_cases hbalanced hrefused with
      ⟨rfl, rfl⟩ | ⟨parts, part, hkind, hparts, hpart, hrefused⟩
    · exact .inr (.inl ⟨⟨tokens, htokens, htoken⟩, rfl⟩)
    · exact .inr (.inr ⟨part, .of_array htokens htoken hkind hparts hpart, hrefused⟩)

/-- So a text that is refused is not balanced itself, or it is, and somewhere in it stands a chain
with a blank token. -/
theorem rejection_cases {text : String} {r : Rejection} (h : readChain text = .error r) :
    (netDepth text.toList ≠ 0 ∧ r = .unbalanced text) ∨
    (netDepth text.toList = 0 ∧ r = .blankName ∧
      ∃ chain, Relation.ReflTransGen HasPart text chain ∧ HasBlankToken chain) := by
  induction hn : text.length using Nat.strongRecOn generalizing text with
  | _ n ih =>
    subst hn
    rcases readChain_error_cases h with hnet | ⟨hblank, rfl⟩ | ⟨part, hpart, hrefused⟩
    · exact .inl hnet
    · exact .inr ⟨hblank.balanced, rfl, text, .refl, hblank⟩
    · rcases ih part.length hpart.length_lt hrefused rfl with
        ⟨hpartNet, -⟩ | ⟨-, hr, chain, hchain, hblank⟩
      · exact absurd hpart.balanced hpartNet
      · exact .inr ⟨hpart.balanced_chain, hr, chain, .head hpart hchain, hblank⟩

/-- Every chain in a text that is read is read. -/
theorem exists_readChain_of_reflTransGen {text chain : String}
    (h : Relation.ReflTransGen HasPart text chain) {forest : List Node}
    (hread : readChain text = .ok forest) : ∃ inner, readChain chain = .ok inner := by
  induction h with
  | refl => exact ⟨forest, hread⟩
  | tail _ hpart ih =>
    obtain ⟨inner, hinner⟩ := ih
    exact hpart.exists_readChain hinner

/-- Only the text as a whole can fail to be balanced. -/
theorem readChain_eq_unbalanced_iff {text culprit : String} :
    readChain text = .error (.unbalanced culprit) ↔
      culprit = text ∧ netDepth text.toList ≠ 0 := by
  constructor
  · intro h
    rcases rejection_cases h with ⟨hnet, heq⟩ | ⟨-, hne, -⟩
    · cases heq
      exact ⟨rfl, hnet⟩
    · cases hne
  · intro h
    obtain ⟨rfl, hnet⟩ := h
    have hsplit : splitChain culprit = .error ⟨culprit⟩ :=
      splitOutside_eq_error_iff.mpr ⟨hnet, rfl⟩
    rw [readChain_eq, hsplit]

theorem exists_rejection_iff {text : String} :
    (∃ r, readChain text = .error r) ↔ netDepth text.toList ≠ 0 ∨
      ∃ chain, Relation.ReflTransGen HasPart text chain ∧ HasBlankToken chain := by
  constructor
  · intro h
    obtain ⟨r, hr⟩ := h
    rcases rejection_cases hr with ⟨hnet, -⟩ | ⟨-, -, hblank⟩
    · exact .inl hnet
    · exact .inr hblank
  · intro h
    rcases h with hnet | ⟨chain, hchain, hblank⟩
    · exact ⟨_, readChain_eq_unbalanced_iff.mpr ⟨rfl, hnet⟩⟩
    · cases hread : readChain text with
      | error r => exact ⟨r, rfl⟩
      | ok forest =>
        obtain ⟨inner, hinner⟩ := exists_readChain_of_reflTransGen hchain hread
        exact absurd hblank (not_hasBlankToken_of_readChain hinner)

namespace Expression

theorem parse_eq_error_iff {text : String} (hne : text ≠ "") :
    parse text = .error ⟨text⟩ ↔ ∃ r, readChain text = .error r := by
  rw [parse, if_neg hne]
  cases readChain text with
  | ok forest => simp
  | error r => simp

/-- Every text is read or refused as a whole. That its brackets do not balance can be said of the
whole text only, and it is said exactly if it has unequal numbers of them. Whatever chain is read on
the way, its arrays have a content, the content can be divided, and the parts are shorter than the
chain and can be divided in turn. A text that is not empty is refused if and only if it has unequal
numbers of brackets or one of the chains in it has a blank token. -/
theorem parse_refusals (text : String) :
    ((∃ e, parse text = .ok e) ∨ parse text = .error ⟨text⟩) ∧
    (∀ culprit, readChain text = .error (.unbalanced culprit) ↔
      culprit = text ∧ text.toList.count '[' ≠ text.toList.count ']') ∧
    (∀ chain tokens token, splitChain chain = .ok tokens → token ∈ tokens →
      (Token.classify token).kind = .array →
      ∃ content parts, (Token.classify token).content = .ok content ∧
        splitMembers content = .ok parts ∧
        ∀ part ∈ parts, part.length < chain.length ∧
          ∃ partTokens, splitChain part = .ok partTokens) ∧
    (text ≠ "" → (parse text = .error ⟨text⟩ ↔
      text.toList.count '[' ≠ text.toList.count ']' ∨
        ∃ chain, Relation.ReflTransGen HasPart text chain ∧ HasBlankToken chain)) := by
  have hbalance : netDepth text.toList ≠ 0 ↔
      text.toList.count '[' ≠ text.toList.count ']' := by
    rw [netDepth_eq_count_sub_count]
    omega
  refine ⟨?_, ?_, ?_, ?_⟩
  · by_cases hempty : text = ""
    · exact .inl ⟨.empty, by rw [parse, if_pos hempty]⟩
    · cases hread : readChain text with
      | ok forest => exact .inl ⟨⟨forest⟩, (parse_of_ne_empty hempty).mpr hread⟩
      | error r => exact .inr ((parse_eq_error_iff hempty).mpr ⟨r, hread⟩)
  · intro culprit
    rw [readChain_eq_unbalanced_iff, hbalance]
  · intro chain tokens token htokens htoken hkind
    obtain ⟨content, parts, hcontent, hparts, hmembers⟩ :=
      exists_parts_of_array htokens htoken hkind
    refine ⟨content, parts, hcontent, hparts, ?_⟩
    intro part hpart
    have hmember := hmembers part hpart
    exact ⟨hmember.length_lt, exists_splitOutside_iff.mpr hmember.balanced⟩
  · intro hne
    rw [parse_eq_error_iff hne, exists_rejection_iff, hbalance]

/-- The blank token stands in an array inside an array. The text is refused as a whole. -/
theorem parse_refusals_nested :
    let text := "x.[a, [b, .c]]"
    text ≠ "" ∧ text.toList.count '[' = text.toList.count ']' ∧
    HasPart text "[b, .c]" ∧ HasPart "[b, .c]" ".c" ∧ HasBlankToken ".c" ∧
    parse text = .error ⟨text⟩ := by
  intro text
  have hne : text ≠ "" := by decide
  have hinner : HasPart text "[b, .c]" :=
    .of_array (show splitChain text = .ok ["x", "[a, [b, .c]]"] by decide +kernel)
      (List.mem_cons_of_mem _ List.mem_cons_self) (by decide)
      (show splitMembers _ = .ok ["a", "[b, .c]"] by decide +kernel)
      (List.mem_cons_of_mem _ List.mem_cons_self)
  have hpart : HasPart "[b, .c]" ".c" :=
    .of_array (show splitChain "[b, .c]" = .ok ["[b, .c]"] by decide +kernel)
      List.mem_cons_self (by decide)
      (show splitMembers _ = .ok ["b", ".c"] by decide +kernel)
      (List.mem_cons_of_mem _ List.mem_cons_self)
  have hblank : HasBlankToken ".c" :=
    ⟨["", "c"], by decide +kernel, List.mem_cons_self⟩
  obtain ⟨-, -, -, hrefused⟩ := parse_refusals text
  refine ⟨hne, by decide, hinner, hpart, hblank, ?_⟩
  exact (hrefused hne).mpr (.inr ⟨".c", .head hinner (.single hpart), hblank⟩)

theorem parse_eq_leaf_iff {name : String} :
    parse name = .ok ⟨[⟨name, []⟩]⟩ ↔ IsAtom name := by
  constructor
  · intro h
    by_cases hempty : name = ""
    · rw [parse, if_pos hempty] at h
      cases h
    · have hnames := allNames_isAtom_of_readChain ((parse_of_ne_empty hempty).mp h)
      exact hnames.1.1
  · intro h
    exact (parse_of_ne_empty h.ne_empty).mpr (readChain_atom h)

/-- An expression that was read has no root only if the text was empty. Each of its names is not
empty, has no blanks at its ends, is no array, and is read as a leaf of that name. -/
theorem parse_names {text : String} {e : Expression} (h : parse text = .ok e) :
    (e.nodes = [] ↔ text = "") ∧
      Forest.AllNames (fun name => name ≠ "" ∧ trim name.toList = name.toList ∧
        (Token.classify name).kind = .plain ∧ parse name = .ok ⟨[⟨name, []⟩]⟩) e.nodes := by
  by_cases hempty : text = ""
  · rw [parse, if_pos hempty] at h
    cases h
    exact ⟨⟨fun _ => hempty, fun _ => rfl⟩, trivial⟩
  · have hread := (parse_of_ne_empty hempty).mp h
    constructor
    · constructor
      · intro hnil
        exact absurd hnil (ne_nil_of_readChain hread)
      · intro htext
        exact absurd htext hempty
    · apply (allNames_isAtom_of_readChain hread).imp
      intro name hname
      exact ⟨hname.ne_empty, hname.trimmed, hname.plain, parse_eq_leaf_iff.mpr hname⟩

/-- Dots and commas between the brackets of a name stay in it when the name is read alone. -/
theorem parse_names_indexed :
    let text := " a[1.5, b] .[x, c][0]"
    parse text = .ok ⟨[⟨"a[1.5, b]", [⟨"x", []⟩, ⟨"c][0", []⟩]⟩]⟩ ∧
    parse "a[1.5, b]" = .ok ⟨[⟨"a[1.5, b]", []⟩]⟩ := by
  intro text
  have hparse : parse text = .ok ⟨[⟨"a[1.5, b]", [⟨"x", []⟩, ⟨"c][0", []⟩]⟩]⟩ := by decide +kernel
  obtain ⟨-, ⟨⟨-, -, -, hname⟩, -⟩, -⟩ := parse_names hparse
  exact ⟨hparse, hname⟩

end Expression

end Prefetch
