import Prefetch.Proofs.BracketedTexts

/-!
# Shielded names

The canonical text of an expression puts brackets around siblings, and a name below several such
lists stands between as many brackets. There a comma of the name divides members if it stands at
depth zero of one of the bracketed texts, and a dot divides links if it stands at depth zero of
the text around one of them. A name is shielded if none of its commas and dots does.
-/

namespace Prefetch

/-- Between the given number of brackets, no comma and no dot of the text stands at a depth at
which it would divide. -/
def shielded (brackets : Nat) (text : List Char) : Bool :=
  (depths 0 text).all fun entry =>
    (entry.1 != ',' || decide (entry.2 ≤ -brackets ∨ 0 < entry.2)) &&
      (entry.1 != '.' || decide (entry.2 < -brackets ∨ 0 ≤ entry.2))

/-- The brackets that the canonical text puts around siblings. -/
def Forest.brackets (siblings : List Node) : Nat := if 2 ≤ siblings.length then 1 else 0

mutual

def Node.shielded (brackets : Nat) : Node → Bool
  | ⟨name, children⟩ =>
    Prefetch.shielded brackets name.toList &&
      Forest.shielded (brackets + Forest.brackets children) children

def Forest.shielded (brackets : Nat) : List Node → Bool
  | [] => true
  | node :: rest => node.shielded brackets && Forest.shielded brackets rest

end

/-- The names of an expression are shielded by the brackets of its canonical text. -/
def Expression.shielded (e : Expression) : Bool :=
  Forest.shielded (Forest.brackets e.nodes) e.nodes

theorem Forest.shielded_iff {brackets : Nat} {forest : List Node} :
    Forest.shielded brackets forest = true ↔ ∀ node ∈ forest, node.shielded brackets = true := by
  induction forest with
  | nil => simp [Forest.shielded]
  | cons node rest ih => simp [Forest.shielded, ih]

theorem shielded_iff {brackets : Nat} {text : List Char} :
    shielded brackets text = true ↔
      (∀ depth, (',', depth) ∈ depths 0 text → depth ≤ -brackets ∨ 0 < depth) ∧
        ∀ depth, ('.', depth) ∈ depths 0 text → depth < -brackets ∨ 0 ≤ depth := by
  simp only [shielded, List.all_eq_true, Bool.and_eq_true, Bool.or_eq_true, bne_iff_ne,
    decide_eq_true_eq, Prod.forall]
  constructor
  · intro h
    refine ⟨fun depth hmem => ?_, fun depth hmem => ?_⟩
    · exact (h _ _ hmem).1.resolve_left (by simp)
    · exact (h _ _ hmem).2.resolve_left (by simp)
  · rintro ⟨hcomma, hdot⟩ c depth hmem
    constructor
    · by_cases hc : c = ','
      · exact .inr (hcomma depth (hc ▸ hmem))
      · exact .inl hc
    · by_cases hc : c = '.'
      · exact .inr (hdot depth (hc ▸ hmem))
      · exact .inl hc

theorem shielded_zero (text : List Char) : shielded 0 text = true := by
  rw [shielded_iff]
  constructor
  · intro depth _
    omega
  · intro depth _
    omega

theorem shielded_one_iff {text : List Char} :
    shielded 1 text = true ↔ (',', 0) ∉ depths 0 text ∧ ('.', -1) ∉ depths 0 text := by
  rw [shielded_iff]
  constructor
  · rintro ⟨hcomma, hdot⟩
    refine ⟨fun hmem => ?_, fun hmem => ?_⟩
    · have := hcomma 0 hmem
      omega
    · have := hdot (-1) hmem
      omega
  · rintro ⟨hcomma, hdot⟩
    refine ⟨fun depth hmem => ?_, fun depth hmem => ?_⟩
    · have hne : depth ≠ 0 := fun heq => hcomma (heq ▸ hmem)
      omega
    · have hne : depth ≠ -1 := fun heq => hdot (heq ▸ hmem)
      omega

theorem shielded_link_iff {brackets : Nat} {s : List Char} (hs : netDepth s = 0) (t : List Char) :
    shielded brackets (s ++ '.' :: t) = true ↔
      shielded brackets s = true ∧ shielded brackets t = true := by
  have hdepths : depths 0 (s ++ '.' :: t) = depths 0 s ++ ('.', 0) :: depths 0 t := by
    rw [depths_append, hs]
    rfl
  simp only [shielded, hdepths, List.all_append, List.all_cons, Bool.and_eq_true]
  constructor
  · rintro ⟨hleft, -, hright⟩
    exact ⟨hleft, hright⟩
  · rintro ⟨hleft, hright⟩
    exact ⟨hleft, by simp, hright⟩

/-- The text would be shielded between brackets put around it and other texts, but for the commas
at its depth zero, which nobody can tell from those that join the texts. -/
structure ShieldedInside (brackets : Nat) (text : List Char) : Prop where
  comma : ∀ depth, (',', depth) ∈ depths 0 text →
    depth = 0 ∨ depth + 1 ≤ -brackets ∨ 0 < depth + 1
  dot : ∀ depth, ('.', depth) ∈ depths 0 text → depth + 1 < -brackets ∨ 0 ≤ depth + 1

theorem shielded_bracketed_joined_iff (brackets : Nat) {texts : List (List Char)}
    (h : ∀ text ∈ texts, netDepth text = 0) :
    shielded brackets (bracketed ([',', ' '].intercalate texts)) = true ↔
      ∀ text ∈ texts, ShieldedInside brackets text := by
  have hcomma : ∀ depth : Int, depth ≠ 1 →
      ((',', depth) ∈ depths 0 (bracketed ([',', ' '].intercalate texts)) ↔
        ∃ text ∈ texts, (',', depth - 1) ∈ depths 0 text) := by
    intro depth hdepth
    refine mem_depths_bracketed_joined h (by decide) ⟨?_, by simp⟩
    intro heq
    have := (Prod.mk.inj heq).2
    omega
  have hdot : ∀ depth : Int,
      (('.', depth) ∈ depths 0 (bracketed ([',', ' '].intercalate texts)) ↔
        ∃ text ∈ texts, ('.', depth - 1) ∈ depths 0 text) :=
    fun depth => mem_depths_bracketed_joined h (by decide) ⟨by simp, by simp⟩
  rw [shielded_iff]
  constructor
  · rintro ⟨hwhole, hwhole'⟩ text htext
    constructor
    · intro depth hmem
      by_cases hzero : depth = 0
      · exact .inl hzero
      · have hmem' := (hcomma (depth + 1) (by omega)).mpr ⟨text, htext, by simpa using hmem⟩
        exact .inr (hwhole _ hmem')
    · intro depth hmem
      exact hwhole' _ ((hdot (depth + 1)).mpr ⟨text, htext, by simpa using hmem⟩)
  · intro heach
    constructor
    · intro depth hmem
      by_cases hone : depth = 1
      · omega
      · obtain ⟨text, htext, hmem⟩ := (hcomma depth hone).mp hmem
        have := (heach text htext).comma _ hmem
        omega
    · intro depth hmem
      obtain ⟨text, htext, hmem⟩ := (hdot depth).mp hmem
      have := (heach text htext).dot _ hmem
      omega

theorem shieldedInside_iff {brackets : Nat} {text : List Char} :
    ShieldedInside brackets text ∧ shielded 1 text = true ↔
      shielded (brackets + 1) text = true := by
  simp only [shielded_iff]
  constructor
  · rintro ⟨hinside, hcomma, hdot⟩
    constructor
    · intro depth hmem
      have hfar := hinside.comma depth hmem
      have hnear := hcomma depth hmem
      omega
    · intro depth hmem
      have hfar := hinside.dot depth hmem
      have hnear := hdot depth hmem
      omega
  · rintro ⟨hcomma, hdot⟩
    refine ⟨⟨fun depth hmem => ?_, fun depth hmem => ?_⟩, fun depth hmem => ?_, fun depth hmem => ?_⟩
    · have := hcomma depth hmem
      omega
    · have := hdot depth hmem
      omega
    · have := hcomma depth hmem
      omega
    · have := hdot depth hmem
      omega

/-- Brackets around joined texts shield one level more, as long as the joining commas and the dots
outside of the brackets are not mixed up with those of the texts. -/
theorem shielded_bracketed_iff (brackets : Nat) {texts : List (List Char)}
    (h : ∀ text ∈ texts, netDepth text = 0) :
    (shielded brackets (bracketed ([',', ' '].intercalate texts)) = true ∧
        ∀ text ∈ texts, shielded 1 text = true) ↔
      ∀ text ∈ texts, shielded (brackets + 1) text = true := by
  rw [shielded_bracketed_joined_iff brackets h, ← forall₂_and]
  exact forall₂_congr fun text _ => shieldedInside_iff

end Prefetch
