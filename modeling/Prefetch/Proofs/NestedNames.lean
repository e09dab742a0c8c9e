import Prefetch.Proofs.NestedBrackets
import Prefetch.Proofs.TextRoundTrip

/-!
# Expressions with well-formed names

A name is well-formed if it can stand in a chain, its brackets are nested, and no comma and no dot
of it stands outside of them. Nothing in such a name stands below depth zero, so it is shielded
between any number of brackets, and an expression with well-formed names is read back from its
canonical text. This holds of every expression, whether or not it was read from a text.
-/

namespace Prefetch

/-- A name that can stand in a chain, with nested brackets and no comma outside of them. -/
structure IsWellFormed (name : String) : Prop extends IsAtom name where
  nested : IsNested name.toList
  undivided : (',', 0) ∉ depths 0 name.toList

theorem Forest.AllNames.imp {P Q : String → Prop} (himp : ∀ name, P name → Q name)
    {forest : List Node} (h : Forest.AllNames P forest) : Forest.AllNames Q forest := by
  induction forest using Forest.inductionOn with
  | nil => trivial
  | cons name children rest hchildren hrest =>
    obtain ⟨⟨hname, hbelow⟩, hbehind⟩ := h
    exact ⟨⟨himp name hname, hchildren hbelow⟩, hrest hbehind⟩

theorem IsWellFormed.shielded {name : String} (h : IsWellFormed name) (brackets : Nat) :
    shielded brackets name.toList = true := by
  rw [shielded_iff]
  constructor
  · intro depth hmem
    have hnonneg := h.nested.depth_nonneg hmem
    have hne : depth ≠ 0 := by
      rintro rfl
      exact h.undivided hmem
    omega
  · intro depth hmem
    have hnonneg := h.nested.depth_nonneg hmem
    omega

theorem Forest.shielded_of_isWellFormed {forest : List Node}
    (h : Forest.AllNames IsWellFormed forest) (brackets : Nat) :
    Forest.shielded brackets forest = true := by
  induction forest using Forest.inductionOn generalizing brackets with
  | nil => rfl
  | cons name children rest hchildren hrest =>
    obtain ⟨⟨hname, hbelow⟩, hbehind⟩ := h
    rw [Forest.shielded, Node.shielded, Bool.and_eq_true, Bool.and_eq_true]
    exact ⟨⟨hname.shielded brackets, hchildren hbelow _⟩, hrest hbehind brackets⟩

/-- Siblings whose names are shielded atoms are read back from the canonical text of all of them. -/
theorem Forest.readChain_bundle_of_shielded {siblings : List Node} (hne : siblings ≠ [])
    (hatoms : ∀ node ∈ siblings, node.AllNames IsAtom)
    (hshielded : Forest.shielded (Forest.brackets siblings) siblings = true) :
    readChain (bundle (siblings.map Node.text)) = .ok siblings := by
  rw [← Nat.zero_add (Forest.brackets siblings)] at hshielded
  have hnode : ∀ node ∈ siblings, ∀ brackets,
      Prefetch.shielded brackets node.text.toList = true ∧ readChain node.text = .ok [node] ↔
        node.shielded brackets = true :=
    fun node hmem => Node.shielded_readChain_text_iff (hatoms node hmem)
  have hblock : ∀ node ∈ siblings, IsBlock node.text.toList :=
    fun node hmem => Node.isBlock_text (hatoms node hmem)
  exact ((shielded_readChain_bundle_iff hne hblock hnode 0).mpr hshielded).2

/-- Every expression whose names are well-formed is read back from its canonical text. -/
theorem Expression.parse_text_of_isWellFormed {e : Expression}
    (h : Forest.AllNames IsWellFormed e.nodes) : Expression.parse e.text = .ok e := by
  by_cases hne : e.nodes = []
  · obtain ⟨nodes⟩ := e
    cases hne
    rfl
  · have hatoms := Forest.allNames_iff.mp (h.imp fun _ hname => hname.toIsAtom)
    have hread := Forest.readChain_bundle_of_shielded hne hatoms
      (Forest.shielded_of_isWellFormed h _)
    have htext : e.text = bundle (e.nodes.map Node.text) := by
      rw [Expression.text, Forest.texts_eq_map]
    have hnonempty : e.text ≠ "" := by
      intro hempty
      have hblank : readChain "" = .error .blankName := by decide +kernel
      rw [← htext, hempty, hblank] at hread
      cases hread
    rw [Expression.parse_of_ne_empty hnonempty, htext, hread]

/-- Names may hold dots and commas between brackets of their own, and begin or end with such
brackets. -/
theorem Expression.parse_text_of_isWellFormed_indexed :
    let e : Expression := ⟨[⟨"[0]a", [⟨"b c", [⟨"^", []⟩]⟩, ⟨"x[1.0, [2]]", []⟩]⟩, ⟨"*", []⟩]⟩
    Forest.AllNames IsWellFormed e.nodes ∧ e.text = "[[0]a.[b c.^, x[1.0, [2]]], *]" ∧
      Expression.parse e.text = .ok e := by
  intro e
  have hnames : ∀ name ∈ ["[0]a", "b c", "^", "x[1.0, [2]]", "*"], IsWellFormed name := by
    intro name hname
    have hdecide : ∀ name ∈ ["[0]a", "b c", "^", "x[1.0, [2]]", "*"],
        (name ≠ "" ∧ trim name.toList = name.toList ∧ (Token.classify name).kind = .plain) ∧
          IsNested name.toList ∧ ('.', 0) ∉ depths 0 name.toList ∧
          (',', 0) ∉ depths 0 name.toList := by decide +kernel
    obtain ⟨⟨hne, htrim, hplain⟩, hnested, hdot, hcomma⟩ := hdecide name hname
    exact ⟨⟨hne, htrim, hplain, hnested.balanced, hdot⟩, hnested, hcomma⟩
  have h : Forest.AllNames IsWellFormed e.nodes := by
    simp [e, Forest.AllNames, Node.AllNames, hnames]
  exact ⟨h, by decide +kernel, Expression.parse_text_of_isWellFormed h⟩

end Prefetch
