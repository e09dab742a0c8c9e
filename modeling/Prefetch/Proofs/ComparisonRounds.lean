import Prefetch.ExpressionCoverage
import Mathlib.Logic.Relation

/-!
# The rounds of a comparison

Comparing two expressions asks the same question about the expressions behind their names. Here one
round of the comparison is written with the way of answering such a question left open. Putting the
questions on record while they are answered shows which ones a round asks: each is about two
expressions that have fewer nodes together than the two at hand. So the rounds that follow one
another come to an end, after no more of them than there are nodes, although a side that selects
everything or repeats itself is handed down unchanged.
-/

namespace Prefetch

namespace Expression

section Round

variable {m : Type → Type} [Monad m]

/-- One round of a comparison on the given names of `r`, in order. The questions about what is
behind a name are put to `ask`. -/
def roundOn (ask : Expression → Expression → m Bool) (f r : Expression) : List String → m Bool
  | [] => pure true
  | name :: names =>
    if f.settles r name then pure true
    else
      match f.step name, r.step name with
      | some own, some sub => do
        if ← ask own sub then roundOn ask f r names else pure false
      | _, _ => pure false

def round (ask : Expression → Expression → m Bool) (f r : Expression) : m Bool :=
  if r.selectsAll then pure f.selectsAll else roundOn ask f r r.rootNames

variable [LawfulMonad m] {ask : Expression → Expression → m Bool} {f r : Expression}

theorem roundOn_eq_coversNames (hall : r.selectsAll = false)
    (hask : ∀ own sub : Expression, own.size + sub.size < f.size + r.size →
      ask own sub = pure (own.covers sub)) (names : List String) :
    roundOn ask f r names = pure (f.coversNames r hall names) := by
  induction names with
  | nil => rw [roundOn, coversNames_nil]
  | cons name names ih =>
    rw [roundOn, coversNames_cons]
    cases hs : f.settles r name with
    | true => rfl
    | false =>
      cases hown : f.step name with
      | none => rfl
      | some own =>
        cases hsub : r.step name with
        | none => rfl
        | some sub =>
          have hanswer := hask own sub (size_add_size_lt hall hs hown hsub)
          simp only [Bool.false_eq_true, if_false, hanswer, pure_bind, Bool.false_or]
          cases own.covers sub with
          | true => simpa using ih
          | false => rfl

/-- A round gives the answer of the comparison if the questions about smaller expressions are
answered as the comparison answers them. -/
theorem round_eq_covers
    (hask : ∀ own sub : Expression, own.size + sub.size < f.size + r.size →
      ask own sub = pure (own.covers sub)) : round ask f r = pure (f.covers r) := by
  rw [round]
  cases hall : r.selectsAll with
  | true =>
    rw [covers_of_selectsAll hall]
    rfl
  | false =>
    rw [covers_of_not_selectsAll hall]
    exact roundOn_eq_coversNames hall hask r.rootNames

end Round

abbrev OnRecord := StateM (List (Expression × Expression))

/-- Answers a question and puts it on record. -/
def recorded (own sub : Expression) : OnRecord Bool := do
  modify (· ++ [(own, sub)])
  return own.covers sub

def questions (f r : Expression) : List (Expression × Expression) :=
  ((round recorded f r).run []).2

/-- The question `q` is asked in the round that `p` starts. -/
def Asks (p q : Expression × Expression) : Prop := q ∈ questions p.1 p.2

/-- The nodes of the two expressions of a question. -/
def nodesOf (q : Expression × Expression) : Nat := q.1.size + q.2.size

/-- The run gives the answer, and the questions that it adds to the record are about fewer nodes
than the bound. -/
def AsksBelow (bound : Nat) (run : OnRecord Bool) (answer : Bool) : Prop :=
  ∀ asked, ∃ more, run.run asked = (answer, asked ++ more) ∧ ∀ q ∈ more, nodesOf q < bound

theorem AsksBelow.pure (bound : Nat) (answer : Bool) : AsksBelow bound (pure answer) answer := by
  intro asked
  refine ⟨[], ?_, by simp⟩
  rw [List.append_nil]
  rfl

theorem AsksBelow.ask {bound : Nat} {own sub : Expression} (hlt : nodesOf (own, sub) < bound)
    {rest : OnRecord Bool} {answer : Bool} (hrest : AsksBelow bound rest answer) :
    AsksBelow bound (do if ← recorded own sub then rest else Pure.pure false)
      (own.covers sub && answer) := by
  intro asked
  cases hcovers : own.covers sub with
  | false =>
    refine ⟨[(own, sub)], ?_, by simpa using hlt⟩
    simp only [recorded, hcovers]
    rfl
  | true =>
    obtain ⟨more, hmore, hsmaller⟩ := hrest (asked ++ [(own, sub)])
    refine ⟨(own, sub) :: more, ?_, List.forall_mem_cons.mpr ⟨hlt, hsmaller⟩⟩
    simpa [recorded, hcovers] using hmore

theorem asksBelow_roundOn {f r : Expression} (hall : r.selectsAll = false)
    (names : List String) :
    AsksBelow (nodesOf (f, r)) (roundOn recorded f r names) (f.coversNames r hall names) := by
  induction names with
  | nil =>
    rw [coversNames_nil]
    exact .pure _ true
  | cons name names ih =>
    rw [roundOn, coversNames_cons]
    cases hs : f.settles r name with
    | true => exact .pure _ true
    | false =>
      cases hown : f.step name with
      | none => exact .pure _ false
      | some own =>
        cases hsub : r.step name with
        | none => exact .pure _ false
        | some sub => exact .ask (size_add_size_lt hall hs hown hsub) ih

/-- A round on record gives the answer of the comparison, and its questions are about fewer
nodes. -/
theorem asksBelow_round (f r : Expression) :
    AsksBelow (nodesOf (f, r)) (round recorded f r) (f.covers r) := by
  rw [round]
  cases hall : r.selectsAll with
  | true =>
    rw [covers_of_selectsAll hall]
    exact .pure _ _
  | false =>
    rw [covers_of_not_selectsAll hall]
    exact asksBelow_roundOn hall r.rootNames

theorem run_round_recorded (f r : Expression) :
    (round recorded f r).run [] = (f.covers r, questions f r) := by
  obtain ⟨more, hmore, -⟩ := asksBelow_round f r []
  rw [questions, hmore]

theorem nodesOf_lt_of_asks {p q : Expression × Expression} (h : Asks p q) :
    nodesOf q < nodesOf p := by
  obtain ⟨more, hmore, hsmaller⟩ := asksBelow_round p.1 p.2 []
  rw [Asks, questions, hmore] at h
  exact hsmaller q (by simpa using h)

theorem asks_of_not_settles {f r own sub : Expression} {name : String} {names : List String}
    (hall : r.selectsAll = false) (hnames : r.rootNames = name :: names)
    (hs : f.settles r name = false) (hown : f.step name = some own)
    (hsub : r.step name = some sub) : Asks (f, r) (own, sub) := by
  rw [Asks, questions, round, hall, hnames, roundOn, hs, hown, hsub]
  cases hcovers : own.covers sub with
  | false =>
    simp only [recorded, hcovers]
    exact List.mem_singleton_self _
  | true =>
    obtain ⟨more, hmore, -⟩ := asksBelow_roundOn (f := f) hall names [(own, sub)]
    simp [recorded, hcovers, hmore]

theorem nodesOf_lt_of_transGen {p q : Expression × Expression} (h : Relation.TransGen Asks p q) :
    nodesOf q < nodesOf p := by
  induction h with
  | single hq => exact nodesOf_lt_of_asks hq
  | tail _ hq ih => exact Nat.lt_trans (nodesOf_lt_of_asks hq) ih

/-- The comparison with at most the given number of rounds below one another. It has no answer if
these are not enough. -/
def coversWithin : (rounds : Nat) → Expression → Expression → Option Bool
  | 0, _, _ => none
  | rounds + 1, f, r => round (coversWithin rounds) f r

/-- As many rounds below one another as there are nodes, and one more, are enough. -/
theorem coversWithin_eq_some {f r : Expression} {rounds : Nat}
    (h : f.size + r.size < rounds) : coversWithin rounds f r = some (f.covers r) := by
  induction rounds generalizing f r with
  | zero => omega
  | succ rounds ih =>
    rw [coversWithin]
    apply round_eq_covers
    intro own sub hlt
    exact ih (by omega)

theorem step_of_repeats {node : Node} (h : node.repeats = true) :
    (⟨[node]⟩ : Expression).step node.name = some ⟨[node]⟩ := by
  cases hall : (⟨[node]⟩ : Expression).selectsAll with
  | true => exact step_of_selectsAll hall node.name
  | false => simp [step, hall, root?, h]

/-- A comparison comes to an end. Written as rounds that put their questions on record, it gives the
same answer, and every question asked in a round, and in the rounds that follow from it, is about
expressions with fewer nodes taken together. So the answer is found within as many rounds below one
another as there are nodes. Neither side need lose a node by itself: an expression that selects
everything and a lone root that repeats itself are handed down as they are. -/
theorem comparison_ends (f r : Expression) :
    (round recorded f r).run [] = (f.covers r, questions f r) ∧
    (∀ own sub, (own, sub) ∈ questions f r → own.size + sub.size < f.size + r.size) ∧
    (∀ own sub, Relation.TransGen Asks (f, r) (own, sub) →
      own.size + sub.size < f.size + r.size) ∧
    coversWithin (f.size + r.size + 1) f r = some (f.covers r) ∧
    (∀ e : Expression, e.selectsAll = true → ∀ name, e.step name = some e) ∧
    (∀ node : Node, node.repeats = true →
      (⟨[node]⟩ : Expression).step node.name = some ⟨[node]⟩) := by
  refine ⟨run_round_recorded f r, ?_, ?_, coversWithin_eq_some (Nat.lt_succ_self _), ?_, ?_⟩
  · intro own sub hasked
    exact nodesOf_lt_of_asks (p := (f, r)) hasked
  · intro own sub hasked
    exact nodesOf_lt_of_transGen hasked
  · intro e hall name
    exact step_of_selectsAll hall name
  · intro node hrepeats
    exact step_of_repeats hrepeats

/-- `a.^` is compared with `a.a.b`. It is handed down unchanged until the names of the other side
leave it. -/
theorem comparison_ends_repeating :
    let f : Expression := ⟨[⟨"a", [⟨"^", []⟩]⟩]⟩
    let r : Expression := ⟨[⟨"a", [⟨"a", [⟨"b", []⟩]⟩]⟩]⟩
    let inner : Expression := ⟨[⟨"a", [⟨"b", []⟩]⟩]⟩
    let last : Expression := ⟨[⟨"b", []⟩]⟩
    (f, inner) ∈ questions f r ∧ f.size + inner.size < f.size + r.size ∧
    Relation.TransGen Asks (f, r) (f, last) ∧ f.size + last.size < f.size + r.size ∧
    coversWithin 6 f r = some false ∧ (⟨[⟨"*", []⟩]⟩ : Expression).selectsAll = true ∧
    (⟨[⟨"*", []⟩]⟩ : Expression).step "a" = some ⟨[⟨"*", []⟩]⟩ ∧
    (⟨"a", [⟨"^", []⟩]⟩ : Node).repeats = true ∧ f.step "a" = some f := by
  intro f r inner last
  have hfirst : Asks (f, r) (f, inner) :=
    asks_of_not_settles rfl (show r.rootNames = ["a"] from rfl) rfl rfl rfl
  have hsecond : Asks (f, inner) (f, last) :=
    asks_of_not_settles rfl (show inner.rootNames = ["a"] from rfl) rfl rfl rfl
  have hasked : Relation.TransGen Asks (f, r) (f, last) := .tail (.single hfirst) hsecond
  have hall : (⟨[⟨"*", []⟩]⟩ : Expression).selectsAll = true := by decide
  have hrepeats : (⟨"a", [⟨"^", []⟩]⟩ : Node).repeats = true := by decide
  have hcovers : f.covers r = false := by cbv
  obtain ⟨-, hdirect, hnested, hwithin, hselects, hhanded⟩ := comparison_ends f r
  refine ⟨hfirst, hdirect _ _ hfirst, hasked, hnested _ _ hasked, ?_, hall, hselects _ hall "a",
    hrepeats, hhanded _ hrepeats⟩
  rw [← hcovers]
  exact hwithin

end Expression

end Prefetch
