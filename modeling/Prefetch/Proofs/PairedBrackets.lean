import Prefetch.Proofs.ExpressionGrammar

/-!
# Brackets of a text that can be read

Every text that is split while an expression is read has as many closing brackets as opening ones,
or it is refused. Their order is not looked at: `a].[b` is one name. So the brackets of a text that
can be read need not be nested. They are, unless a name is to blame: a name that stands between
some number of array brackets may close that many brackets before it opens them, and the brackets
of the text are nested if and only if no name closes more.
-/

namespace Prefetch

theorem netDepth_eq_count_sub_count (text : List Char) :
    netDepth text = (text.count '[' : Int) - text.count ']' := by
  induction text with
  | nil => rfl
  | cons c text ih =>
    rw [netDepth, ih, depthStep, List.count_cons, List.count_cons]
    by_cases hopen : c = '['
    · simp [hopen]
      omega
    · by_cases hclose : c = ']'
      · simp [hclose]
        omega
      · simp [hopen, hclose]

/-- Between the given number of brackets, no character of the text stands below depth zero. -/
def Contained (brackets : Nat) (text : List Char) : Prop :=
  ∀ entry ∈ depths brackets text, 0 ≤ entry.2

instance (brackets : Nat) : DecidablePred (Contained brackets) :=
  fun text => inferInstanceAs (Decidable (∀ entry ∈ depths brackets text, 0 ≤ entry.2))

theorem isNested_iff_contained {text : List Char} (h : netDepth text = 0) :
    IsNested text ↔ Contained 0 text := by
  rw [isNested_iff]
  exact and_iff_right h

theorem IsNested.contained {text : List Char} (h : IsNested text) (brackets : Nat) :
    Contained brackets text := by
  rintro ⟨c, depth⟩ hentry
  rw [← Int.zero_add (brackets : Int), mem_depths_add] at hentry
  have hdepth := h.depth_nonneg hentry
  simp only
  omega

section Contained

variable {brackets : Nat}

theorem contained_append {s : List Char} (hs : netDepth s = 0) (t : List Char) :
    Contained brackets (s ++ t) ↔ Contained brackets s ∧ Contained brackets t := by
  simp only [Contained, depths_append, hs, Int.add_zero, List.forall_mem_append]

theorem contained_bracketed {text : List Char} (h : netDepth text = 0) :
    Contained brackets (bracketed text) ↔ Contained (brackets + 1) text := by
  simp only [Contained, depths_bracketed h, List.forall_mem_cons, List.forall_mem_append,
    Int.natCast_add, Int.cast_ofNat_Int]
  constructor
  · rintro ⟨-, hinner, -⟩
    exact hinner
  · intro hinner
    refine ⟨Int.natCast_nonneg brackets, hinner, ?_, by simp⟩
    omega

theorem contained_trim {text : List Char} (h : netDepth text = 0) :
    Contained brackets (trim text) ↔ Contained brackets text := by
  obtain ⟨before, after, htext, hbefore, hafter⟩ := exists_append_trim text
  have hblank : ∀ blanks : List Char, (∀ c ∈ blanks, isBlank c = true) → IsNested blanks :=
    fun blanks hblanks => .of_forall_depthStep fun c hc => depthStep_of_isBlank (hblanks c hc)
  have hfront := hblank before hbefore
  have hback := hblank after hafter
  have hnet : netDepth (trim text) = 0 := by rw [netDepth_trim, h]
  conv_rhs => rw [htext]
  rw [List.append_assoc, contained_append hfront.balanced, contained_append hnet,
    and_iff_right (hfront.contained brackets), and_iff_left (hback.contained brackets)]

theorem contained_intercalate {separator : Char} (hsep : depthStep separator = 0)
    {pieces : List (List Char)} (h : ∀ piece ∈ pieces, netDepth piece = 0) :
    Contained brackets ([separator].intercalate pieces) ↔
      ∀ piece ∈ pieces, Contained brackets piece := by
  induction pieces with
  | nil => simp [Contained]
  | cons first rest ih =>
    have hfirst := h first List.mem_cons_self
    have hrest := ih fun piece hpiece => h piece (List.mem_cons_of_mem _ hpiece)
    cases rest with
    | nil => simp
    | cons next rest =>
      have hseparator : IsNested [separator] := .of_forall_depthStep (by simpa using hsep)
      have hnet : netDepth (first ++ [separator]) = 0 := by
        rw [netDepth_append, hfirst, hseparator.balanced]
        rfl
      rw [List.intercalate_cons_cons, contained_append hnet, contained_append hfirst, hrest,
        and_iff_left (hseparator.contained brackets)]
      exact List.forall_mem_cons.symm

theorem contained_iff_of_splitOutside {separator : Char} (hsep : depthStep separator = 0)
    {text : String} {pieces : List String}
    (h : splitOutside (· == separator) text = .ok pieces) :
    Contained brackets text.toList ↔ ∀ piece ∈ pieces, Contained brackets piece.toList := by
  obtain ⟨hnet, rfl⟩ := splitOutside_eq_ok_iff.mp h
  have hpieces : ∀ piece ∈ cut (· == separator) 0 text.toList, netDepth piece = 0 :=
    fun piece hpiece => (mem_cut_spec hsep hnet hpiece).1
  calc Contained brackets text.toList
      ↔ Contained brackets ([separator].intercalate (cut (· == separator) 0 text.toList)) := by
        rw [intercalate_cut hsep]
    _ ↔ ∀ piece ∈ cut (· == separator) 0 text.toList, Contained brackets piece :=
        contained_intercalate hsep hpieces
    _ ↔ ∀ piece ∈ (cut (· == separator) 0 text.toList).map fun piece =>
          String.ofList (trim piece), Contained brackets piece.toList := by
        rw [List.forall_mem_map]
        refine forall₂_congr fun piece hpiece => ?_
        rw [String.toList_ofList, contained_trim (hpieces piece hpiece)]

end Contained

mutual

/-- The name is read in the chain, between that many brackets of its arrays. -/
inductive NamedInChain : String → Nat → String → Prop where
  | link {text tokens token brackets name} (htokens : splitChain text = .ok tokens)
      (htoken : token ∈ tokens) (hname : NamedInLink token brackets name) :
      NamedInChain text brackets name

inductive NamedInLink : String → Nat → String → Prop where
  | name {token} (hkind : (Token.classify token).kind = .plain) (hne : token ≠ "") :
      NamedInLink token 0 token
  | member {token parts part brackets name} (hkind : (Token.classify token).kind = .array)
      (hparts : splitMembers (Token.interior token) = .ok parts) (hpart : part ∈ parts)
      (hname : NamedInChain part brackets name) : NamedInLink token (brackets + 1) name

end

section Named

variable {P : Nat → String → Prop} {token : String}

theorem forall_namedInChain_iff {text : String} {tokens : List String}
    (htokens : splitChain text = .ok tokens) :
    (∀ brackets name, NamedInChain text brackets name → P brackets name) ↔
      ∀ token ∈ tokens, ∀ brackets name, NamedInLink token brackets name → P brackets name := by
  constructor
  · intro h token htoken brackets name hname
    exact h brackets name (.link htokens htoken hname)
  · intro h brackets name hname
    cases hname with
    | link htokens' htoken hname =>
      rw [htokens] at htokens'
      cases htokens'
      exact h _ htoken brackets name hname

theorem forall_namedInLink_iff_of_plain (hkind : (Token.classify token).kind = .plain)
    (hne : token ≠ "") :
    (∀ brackets name, NamedInLink token brackets name → P brackets name) ↔ P 0 token := by
  constructor
  · intro h
    exact h 0 token (.name hkind hne)
  · intro h brackets name hname
    cases hname with
    | name => exact h
    | member hkind' =>
      rw [hkind] at hkind'
      cases hkind'

theorem forall_namedInLink_iff_of_array (hkind : (Token.classify token).kind = .array)
    {parts : List String} (hparts : splitMembers (Token.interior token) = .ok parts) :
    (∀ brackets name, NamedInLink token brackets name → P brackets name) ↔
      ∀ part ∈ parts, ∀ brackets name, NamedInChain part brackets name →
        P (brackets + 1) name := by
  constructor
  · intro h part hpart brackets name hname
    exact h (brackets + 1) name (.member hkind hparts hpart hname)
  · intro h brackets name hname
    cases hname with
    | name hkind' =>
      rw [hkind] at hkind'
      cases hkind'
    | member _ hparts' hpart hname =>
      rw [hparts] at hparts'
      cases hparts'
      exact h _ hpart _ name hname

end Named

/-- Whatever number of brackets the text stands between, it is contained if and only if every name
read in it is, between these brackets and those of its arrays. -/
def ContainedByNames (text : String) : Prop :=
  ∀ outer : Nat, Contained outer text.toList ↔
    ∀ brackets name, NamedInChain text brackets name → Contained (outer + brackets) name.toList

/-- A token is contained if and only if its names are, when this is known of the members of an
array. -/
theorem contained_iff_of_readsLink {token : String} {link : Link}
    (h : ReadsLink (fun part _ => ContainedByNames part) token link) (outer : Nat) :
    Contained outer token.toList ↔
      ∀ brackets name, NamedInLink token brackets name →
        Contained (outer + brackets) name.toList := by
  cases h with
  | name hkind hne =>
    rw [forall_namedInLink_iff_of_plain hkind hne]
    rfl
  | @group parts forests hkind hparts hforests =>
    obtain ⟨text, htext⟩ := exists_bracketed_of_kind hkind
    have hinterior := interior_bracketed htext
    have hnet := (splitMembers_eq_ok_iff.mp hparts).1
    rw [hinterior] at hnet
    rw [forall_namedInLink_iff_of_array hkind hparts, htext, contained_bracketed hnet, ← hinterior,
      contained_iff_of_splitOutside (by decide) hparts]
    refine forall₂_congr fun part hpart => ?_
    obtain ⟨forest, -, hpart⟩ := exists_of_mem_left hforests hpart
    rw [hpart (outer + 1)]
    simp only [Nat.add_assoc, Nat.add_comm 1]

theorem containedByNames_of_readChain {text : String} {forest : List Node}
    (h : readChain text = .ok forest) : ContainedByNames text := by
  refine readChain_induction (motive := fun text _ => ContainedByNames text) ?_ h
  intro text tokens links htokens hlinks outer
  rw [forall_namedInChain_iff htokens, contained_iff_of_splitOutside (by decide) htokens]
  refine forall₂_congr fun token htoken => ?_
  obtain ⟨link, -, hlink⟩ := exists_of_mem_left hlinks htoken
  exact contained_iff_of_readsLink hlink outer

theorem allNames_flatten_iff {P Q : String → Prop} {parts : List String}
    {forests : List (List Node)}
    (h : List.Forall₂ (fun part forest => Forest.AllNames P forest ↔ Q part) parts forests) :
    Forest.AllNames P forests.flatten ↔ ∀ part ∈ parts, Q part := by
  induction h with
  | nil => simp [Forest.AllNames]
  | cons hfirst _ ih =>
    rw [List.flatten_cons, Forest.allNames_append, List.forall_mem_cons, hfirst, ih]

theorem allNames_assemble_iff {P : String → Prop} {tokens : List String} {links : List Link}
    (h : List.Forall₂ (ReadsLink fun part forest => Forest.AllNames P forest ↔
      ∀ brackets name, NamedInChain part brackets name → P name) tokens links) :
    Forest.AllNames P (assemble links) ↔
      ∀ token ∈ tokens, ∀ brackets name, NamedInLink token brackets name → P name := by
  induction h with
  | nil => simp [Forest.AllNames]
  | @cons token link tokens links hlink _ ih =>
    rw [List.forall_mem_cons, ← ih]
    cases hlink with
    | name hkind hne =>
      rw [assemble_name, forall_namedInLink_iff_of_plain hkind hne]
      simp [Forest.AllNames, Node.AllNames]
    | group hkind hparts hforests =>
      rw [assemble_group, Forest.allNames_append, allNames_flatten_iff hforests,
        forall_namedInLink_iff_of_array hkind hparts]

/-- The names of a forest are those that are read in its text. -/
theorem allNames_iff_of_readChain {P : String → Prop} {text : String} {forest : List Node}
    (h : readChain text = .ok forest) :
    Forest.AllNames P forest ↔ ∀ brackets name, NamedInChain text brackets name → P name := by
  refine readChain_induction (motive := fun text forest => Forest.AllNames P forest ↔
    ∀ brackets name, NamedInChain text brackets name → P name) ?_ h
  intro text tokens links htokens hlinks
  rw [allNames_assemble_iff hlinks, forall_namedInChain_iff htokens]

theorem not_namedInChain_empty (brackets : Nat) (name : String) :
    ¬ NamedInChain "" brackets name := by
  intro h
  cases h with
  | link htokens htoken hname =>
    have hsplit : splitChain "" = .ok [""] := by decide
    rw [hsplit] at htokens
    cases htokens
    cases List.mem_singleton.mp htoken
    cases hname with
    | name _ hne => exact hne rfl
    | member hkind => exact absurd hkind (by decide)

/-- A text that is read as an expression has as many closing brackets as opening ones, and the names
of the expression are those that stand in the text. The brackets of the text are nested if and only
if no name closes more brackets than the text puts around it, and so they are nested if those of
every name are. -/
theorem Expression.isNested_iff_of_parse {text : String} {e : Expression}
    (h : Expression.parse text = .ok e) :
    text.toList.count '[' = text.toList.count ']' ∧
      (∀ P : String → Prop, Forest.AllNames P e.nodes ↔
        ∀ brackets name, NamedInChain text brackets name → P name) ∧
      (IsNested text.toList ↔
        ∀ brackets name, NamedInChain text brackets name → Contained brackets name.toList) ∧
      (Forest.AllNames (fun name => IsNested name.toList) e.nodes → IsNested text.toList) := by
  by_cases hempty : text = ""
  · subst hempty
    cases h
    have hnested : IsNested [] := .of_forall_depthStep (by simp)
    simp [not_namedInChain_empty, hnested, Expression.empty, Forest.AllNames]
  · have hread := (Expression.parse_of_ne_empty hempty).mp h
    obtain ⟨tokens, links, htokens, -, -⟩ := readChain_eq_ok_iff.mp hread
    have hnet := (splitOutside_eq_ok_iff.mp htokens).1
    have hcount : text.toList.count '[' = text.toList.count ']' := by
      rw [netDepth_eq_count_sub_count] at hnet
      omega
    have hiff : IsNested text.toList ↔
        ∀ brackets name, NamedInChain text brackets name → Contained brackets name.toList := by
      have hnames := containedByNames_of_readChain hread 0
      simp only [Nat.zero_add] at hnames
      rw [isNested_iff_contained hnet, hnames]
    refine ⟨hcount, fun P => allNames_iff_of_readChain hread, hiff, ?_⟩
    intro hnested
    rw [allNames_iff_of_readChain hread] at hnested
    exact hiff.mpr fun brackets name hname => (hnested brackets name hname).contained brackets

/-- The brackets of the text are nested, though those of the name that it puts between brackets are
not. -/
theorem Expression.isNested_iff_of_parse_enclosed :
    let text := "[a][b].c[0]"
    Expression.parse text = .ok ⟨[⟨"a][b", []⟩, ⟨"c[0]", []⟩]⟩ ∧ IsNested text.toList ∧
      ¬ IsNested "a][b".toList ∧ text.toList.count '[' = text.toList.count ']' ∧
      ∀ brackets name, NamedInChain text brackets name → Contained brackets name.toList := by
  intro text
  have hparse : Expression.parse text = .ok ⟨[⟨"a][b", []⟩, ⟨"c[0]", []⟩]⟩ := by decide +kernel
  have hnested : IsNested text.toList := by decide
  obtain ⟨hcount, -, hiff, -⟩ := Expression.isNested_iff_of_parse hparse
  exact ⟨hparse, hnested, by decide, hcount, hiff.mp hnested⟩

/-- A closing bracket with the opening one behind it is accepted, and the dot between them does not
divide. -/
theorem Expression.parse_of_unpaired_brackets :
    Expression.parse "a].[b" = .ok ⟨[⟨"a].[b", []⟩]⟩ ∧ ¬ IsNested "a].[b".toList := by
  constructor
  · decide +kernel
  · decide

end Prefetch
