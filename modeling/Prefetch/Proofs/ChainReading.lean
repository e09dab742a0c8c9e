import Prefetch.ExpressionParser
import Prefetch.Proofs.BracketDepths
import Prefetch.Proofs.FallibleRuns

/-!
# How a chain is read

The stack of open levels gives what reading a chain from the left suggests: a name is a node with
the rest of the chain below it, and the members of a group stand in front of the rest of the chain.

Reading recurses through the tokens of a chain and the members of an array. `readChain_induction`
packs this recursion into one principle: it is enough to go from the members of the arrays of a
chain to the chain. The names that reading can give and a bound on their dots are found with it.
-/

namespace Prefetch

def chainForest : List Link → List Node
  | [] => []
  | .name name :: links => [⟨name, chainForest links⟩]
  | .group members :: links => members ++ chainForest links

theorem assembleFrom_eq_closeLevels (levels : List OpenLevel) (siblings : List Node)
    (links : List Link) :
    assembleFrom levels siblings links = closeLevels levels (siblings ++ chainForest links) := by
  induction links generalizing levels siblings with
  | nil => simp [assembleFrom, chainForest]
  | cons link links ih =>
    cases link with
    | name name =>
      rw [assembleFrom, ih, List.nil_append]
      rfl
    | group members =>
      rw [assembleFrom, ih, List.append_assoc]
      rfl

/-- The stack of open levels gives the forest that the chain denotes from the left. -/
theorem assemble_eq_chainForest (links : List Link) : assemble links = chainForest links := by
  rw [assemble, assembleFrom_eq_closeLevels]
  rfl

@[simp] theorem assemble_nil : assemble [] = [] := rfl

@[simp] theorem assemble_name (name : String) (links : List Link) :
    assemble (.name name :: links) = [⟨name, assemble links⟩] := by
  simp only [assemble_eq_chainForest, chainForest]

@[simp] theorem assemble_group (members : List Node) (links : List Link) :
    assemble (.group members :: links) = members ++ assemble links := by
  simp only [assemble_eq_chainForest, chainForest]

theorem splitOutside_eq_ok_iff {isSeparator : Char → Bool} {text : String}
    {pieces : List String} :
    splitOutside isSeparator text = .ok pieces ↔
      netDepth text.toList = 0 ∧
        pieces = (cut isSeparator 0 text.toList).map fun piece => String.ofList (trim piece) := by
  simp only [splitOutside]
  split
  case isTrue h => simp [h, eq_comm]
  case isFalse h => simp [h]

theorem balanced_of_mem_splitOutside {separator : Char} (hsep : depthStep separator = 0)
    {text piece : String} {pieces : List String}
    (h : splitOutside (· == separator) text = .ok pieces) (hpiece : piece ∈ pieces) :
    netDepth piece.toList = 0 := by
  obtain ⟨hnet, rfl⟩ := splitOutside_eq_ok_iff.mp h
  obtain ⟨raw, hraw, rfl⟩ := List.mem_map.mp hpiece
  rw [String.toList_ofList, netDepth_trim]
  exact (mem_cut_spec hsep hnet hraw).1

/-- The members of a text: what its commas at depth zero divide, without the blanks around it. -/
def membersOf (text : List Char) : List String :=
  (cut (· == ',') 0 text).map fun piece => String.ofList (trim piece)

theorem membersOf_ne_nil (text : List Char) : membersOf text ≠ [] := by
  simp [membersOf, cut_ne_nil]

theorem splitMembers_eq_ok_iff {text : String} {parts : List String} :
    splitMembers text = .ok parts ↔
      netDepth text.toList = 0 ∧ parts = membersOf text.toList :=
  splitOutside_eq_ok_iff

theorem readChain_eq_ok_iff {text : String} {forest : List Node} :
    readChain text = .ok forest ↔
      ∃ tokens links, splitChain text = .ok tokens ∧
        List.Forall₂ (fun token link => readLink token = .ok link) tokens links ∧
        forest = assemble links := by
  rw [readChain_eq]
  cases splitChain text with
  | error e => simp
  | ok tokens =>
    simp only [map_eq_ok_iff, mapM_eq_ok_iff, Except.ok.injEq]
    constructor
    · rintro ⟨links, hlinks, rfl⟩
      exact ⟨tokens, links, rfl, hlinks, rfl⟩
    · rintro ⟨tokens, links, rfl, hlinks, rfl⟩
      exact ⟨links, hlinks, rfl⟩

theorem readChain_eq_ok_iff_of_split {text : String} {tokens : List String} {forest : List Node}
    (htokens : splitChain text = .ok tokens) :
    readChain text = .ok forest ↔
      ∃ links, List.Forall₂ (fun token link => readLink token = .ok link) tokens links ∧
        forest = assemble links := by
  rw [readChain_eq_ok_iff, htokens]
  simp

theorem readLink_of_plain {token : String} (hkind : (Token.classify token).kind = .plain)
    (hne : token ≠ "") : readLink token = .ok (.name token) := by
  rw [readLink_eq, hkind]
  simp [hne]

theorem readLink_eq_ok_iff_of_array {token : String} {link : Link}
    (hkind : (Token.classify token).kind = .array) :
    readLink token = .ok link ↔
      ∃ parts forests, splitMembers (Token.interior token) = .ok parts ∧
        List.Forall₂ (fun part forest => readChain part = .ok forest) parts forests ∧
        link = .group forests.flatten := by
  rw [readLink_eq, hkind]
  simp only
  cases splitMembers (Token.interior token) with
  | error e => simp
  | ok parts =>
    simp only [map_eq_ok_iff, mapM_eq_ok_iff, Except.ok.injEq]
    constructor
    · rintro ⟨forests, hforests, rfl⟩
      exact ⟨parts, forests, rfl, hforests, rfl⟩
    · rintro ⟨parts, forests, rfl, hforests, rfl⟩
      exact ⟨forests, hforests, rfl⟩

theorem readLink_eq_ok_iff_of_split {token : String} {parts : List String} {link : Link}
    (hkind : (Token.classify token).kind = .array)
    (hparts : splitMembers (Token.interior token) = .ok parts) :
    readLink token = .ok link ↔
      ∃ forests, List.Forall₂ (fun part forest => readChain part = .ok forest) parts forests ∧
        link = .group forests.flatten := by
  rw [readLink_eq_ok_iff_of_array hkind, hparts]
  simp

/-- A token together with the link that it stands for, where a relation between a text and its
forest is already known of the members of an array. -/
inductive ReadsLink (motive : String → List Node → Prop) : String → Link → Prop where
  | name {token} (hkind : (Token.classify token).kind = .plain) (hne : token ≠ "") :
      ReadsLink motive token (.name token)
  | group {token parts forests} (hkind : (Token.classify token).kind = .array)
      (hparts : splitMembers (Token.interior token) = .ok parts)
      (hforests : List.Forall₂ motive parts forests) :
      ReadsLink motive token (.group forests.flatten)

theorem readsLink_of_readLink {motive : String → List Node → Prop} {token : String} {link : Link}
    (h : readLink token = .ok link)
    (hmembers : ∀ part forest, part.length < token.length → readChain part = .ok forest →
      motive part forest) : ReadsLink motive token link := by
  cases hkind : (Token.classify token).kind with
  | plain =>
    have hne : token ≠ "" := by
      intro hempty
      rw [readLink_eq, hkind] at h
      simp [hempty] at h
    rw [readLink_of_plain hkind hne] at h
    cases h
    exact .name hkind hne
  | array =>
    obtain ⟨parts, forests, hparts, hforests, rfl⟩ := (readLink_eq_ok_iff_of_array hkind).mp h
    refine .group hkind hparts (forall₂_imp_of_mem hforests fun part hpart forest hread => ?_)
    exact hmembers part forest (length_member_lt hkind hparts hpart) hread

/-- To know something of every text that can be read and its forest, it is enough to derive it for
a chain from the members of its arrays. -/
theorem readChain_induction {motive : String → List Node → Prop}
    (step : ∀ text tokens links, splitChain text = .ok tokens →
      List.Forall₂ (ReadsLink motive) tokens links → motive text (assemble links))
    {text : String} {forest : List Node} (h : readChain text = .ok forest) :
    motive text forest := by
  induction hn : text.length using Nat.strongRecOn generalizing text forest with
  | _ n ih =>
    subst hn
    obtain ⟨tokens, links, htokens, hlinks, rfl⟩ := readChain_eq_ok_iff.mp h
    refine step text tokens links htokens (forall₂_imp_of_mem hlinks fun token htoken link h => ?_)
    refine readsLink_of_readLink h fun part forest hlength hread => ?_
    have hle := length_token_le htokens htoken
    exact ih _ (Nat.lt_of_lt_of_le hlength hle) hread rfl

theorem assemble_ne_nil {tokens : List String} {links : List Link} (htokens : tokens ≠ [])
    (h : List.Forall₂ (ReadsLink fun _ forest => forest ≠ []) tokens links) :
    assemble links ≠ [] := by
  cases h with
  | nil => exact absurd rfl htokens
  | @cons token link tokens links hlink hlinks =>
    cases hlink with
    | name hkind hne => simp
    | @group parts forests hkind hparts hforests =>
      obtain ⟨-, hmembers⟩ := splitMembers_eq_ok_iff.mp hparts
      cases hforests with
      | nil => exact absurd hmembers.symm (membersOf_ne_nil _)
      | cons hfirst hrest =>
        rw [assemble_group, List.flatten_cons, List.append_assoc]
        exact List.append_ne_nil_of_left_ne_nil hfirst _

theorem ne_nil_of_readChain {text : String} {forest : List Node}
    (h : readChain text = .ok forest) : forest ≠ [] := by
  refine readChain_induction (motive := fun _ forest => forest ≠ []) ?_ h
  intro text tokens links htokens hlinks
  refine assemble_ne_nil ?_ hlinks
  obtain ⟨-, rfl⟩ := splitOutside_eq_ok_iff.mp htokens
  simp [cut_ne_nil]

mutual

def Node.AllNames (P : String → Prop) : Node → Prop
  | ⟨name, children⟩ => P name ∧ Forest.AllNames P children

def Forest.AllNames (P : String → Prop) : List Node → Prop
  | [] => True
  | node :: rest => node.AllNames P ∧ Forest.AllNames P rest

end

theorem Forest.allNames_iff {P : String → Prop} {forest : List Node} :
    Forest.AllNames P forest ↔ ∀ node ∈ forest, node.AllNames P := by
  induction forest with
  | nil => simp [Forest.AllNames]
  | cons node rest ih => simp [Forest.AllNames, ih]

/-- A name as a token of a chain can be: not empty, without blanks at its ends, not an array, with
as many closing brackets as opening ones, and with no dot at depth zero. -/
structure IsAtom (name : String) : Prop where
  ne_empty : name ≠ ""
  trimmed : trim name.toList = name.toList
  plain : (Token.classify name).kind = .plain
  balanced : netDepth name.toList = 0
  undotted : ('.', 0) ∉ depths 0 name.toList

theorem isAtom_of_mem_splitChain {text token : String} {tokens : List String}
    (h : splitChain text = .ok tokens) (htoken : token ∈ tokens)
    (hkind : (Token.classify token).kind = .plain) (hne : token ≠ "") : IsAtom token := by
  have hbalanced := balanced_of_mem_splitOutside (by decide) h htoken
  obtain ⟨hnet, rfl⟩ := splitOutside_eq_ok_iff.mp h
  obtain ⟨piece, hpiece, rfl⟩ := List.mem_map.mp htoken
  have hundotted := (mem_cut_spec (by decide) hnet hpiece).2
  refine ⟨hne, ?_, hkind, hbalanced, ?_⟩
  · rw [String.toList_ofList, trim_trim]
  · rw [String.toList_ofList]
    exact fun hmem => hundotted (mem_depths_of_trim hmem)

theorem allNames_assemble {P : String → Prop} {links : List Link}
    (hname : ∀ name, Link.name name ∈ links → P name)
    (hgroup : ∀ members, Link.group members ∈ links → Forest.AllNames P members) :
    Forest.AllNames P (assemble links) := by
  induction links with
  | nil => simp [Forest.AllNames]
  | cons link links ih =>
    have hrest := ih (fun name h => hname name (List.mem_cons_of_mem _ h))
      fun members h => hgroup members (List.mem_cons_of_mem _ h)
    cases link with
    | name name =>
      rw [assemble_name]
      exact ⟨⟨hname name List.mem_cons_self, hrest⟩, trivial⟩
    | group members =>
      rw [assemble_group, Forest.allNames_iff]
      intro node hnode
      rcases List.mem_append.mp hnode with hnode | hnode
      · exact Forest.allNames_iff.mp (hgroup members List.mem_cons_self) node hnode
      · exact Forest.allNames_iff.mp hrest node hnode

theorem allNames_isAtom_of_readChain {text : String} {forest : List Node}
    (h : readChain text = .ok forest) : Forest.AllNames IsAtom forest := by
  refine readChain_induction (motive := fun _ forest => Forest.AllNames IsAtom forest) ?_ h
  intro text tokens links htokens hlinks
  refine allNames_assemble ?_ ?_
  · intro name hmem
    obtain ⟨token, htoken, hreads⟩ := exists_of_mem_right hlinks hmem
    cases hreads with
    | name hkind hne => exact isAtom_of_mem_splitChain htokens htoken hkind hne
  · intro members hmem
    obtain ⟨token, -, hreads⟩ := exists_of_mem_right hlinks hmem
    cases hreads with
    | group hkind hparts hforests =>
      rw [Forest.allNames_iff]
      intro node hnode
      obtain ⟨forest, hforest, hnode⟩ := List.mem_flatten.mp hnode
      obtain ⟨part, -, hnames⟩ := exists_of_mem_right hforests hforest
      exact Forest.allNames_iff.mp hnames node hnode

mutual

/-- The dots in the names of a tree, and one for every node with children: the dot that divides it
from them. -/
def Node.dots : Node → Nat
  | ⟨name, children⟩ =>
    name.toList.count '.' + (if children.isEmpty then 0 else 1) + Forest.dots children

def Forest.dots : List Node → Nat
  | [] => 0
  | node :: rest => node.dots + Forest.dots rest

end

theorem Forest.dots_append (forest rest : List Node) :
    Forest.dots (forest ++ rest) = Forest.dots forest + Forest.dots rest := by
  induction forest with
  | nil => simp [Forest.dots]
  | cons node forest ih =>
    simp only [List.cons_append, Forest.dots, ih]
    omega

def Link.dots : Link → Nat
  | .name text => text.toList.count '.'
  | .group members => Forest.dots members

@[simp] theorem Link.dots_name (text : String) :
    (Link.name text).dots = text.toList.count '.' := rfl

@[simp] theorem Link.dots_group (members : List Node) :
    (Link.group members).dots = Forest.dots members := rfl

theorem dots_assemble_lt {links : List Link} (h : links ≠ []) :
    Forest.dots (assemble links) < (links.map (·.dots + 1)).sum := by
  induction links with
  | nil => exact absurd rfl h
  | cons link links ih =>
    have hrest : Forest.dots (assemble links) ≤ (links.map (·.dots + 1)).sum ∧
        (assemble links ≠ [] → Forest.dots (assemble links) < (links.map (·.dots + 1)).sum) := by
      by_cases hnil : links = []
      · simp [hnil, Forest.dots]
      · exact ⟨Nat.le_of_lt (ih hnil), fun _ => ih hnil⟩
    rw [List.map_cons, List.sum_cons]
    cases link with
    | name name =>
      simp only [assemble_name, Forest.dots, Node.dots, Link.dots_name]
      split
      case isTrue => omega
      case isFalse hne =>
        have hlt := hrest.2 fun hnil => hne (by simp [hnil])
        omega
    | group members =>
      simp only [assemble_group, Forest.dots_append, Link.dots_group]
      omega

theorem sum_count_pieces {separator : Char} (hsep : depthStep separator = 0) {text : String}
    {pieces : List String} (h : splitOutside (· == separator) text = .ok pieces) :
    (pieces.map fun piece => piece.toList.count '.' + if '.' = separator then 1 else 0).sum =
      text.toList.count '.' + if '.' = separator then 1 else 0 := by
  obtain ⟨-, rfl⟩ := splitOutside_eq_ok_iff.mp h
  have hdot : isBlank '.' = false := by decide
  rw [← sum_count_cut separator hsep, List.map_map]
  congr 1
  apply List.map_congr_left
  intro piece _
  rw [Function.comp_apply, String.toList_ofList, count_trim hdot]

theorem sum_count_tokens {text : String} {tokens : List String}
    (h : splitChain text = .ok tokens) :
    (tokens.map fun token => token.toList.count '.' + 1).sum = text.toList.count '.' + 1 := by
  simpa using sum_count_pieces (by decide) h

theorem sum_count_members {text : String} {parts : List String}
    (h : splitMembers text = .ok parts) :
    (parts.map fun part => part.toList.count '.').sum = text.toList.count '.' := by
  simpa using sum_count_pieces (by decide) h

theorem count_interior_le (token : String) :
    (Token.interior token).toList.count '.' ≤ token.toList.count '.' := by
  rw [Token.interior, String.toList_ofList]
  exact ((List.dropLast_sublist _).trans (List.tail_sublist _)).count_le _

/-- The dots of the links are found in their tokens, if the dots of the members are found in
theirs. -/
theorem sum_dots_le {tokens : List String} {links : List Link}
    (h : List.Forall₂
      (ReadsLink fun part forest => Forest.dots forest ≤ part.toList.count '.') tokens links) :
    (links.map (·.dots + 1)).sum ≤ (tokens.map fun token => token.toList.count '.' + 1).sum := by
  induction h with
  | nil => exact Nat.le_refl _
  | @cons token link tokens links hlink _ ih =>
    have hdots : link.dots ≤ token.toList.count '.' := by
      cases hlink with
      | name hkind hne => exact Nat.le_refl _
      | @group parts forests hkind hparts hforests =>
        have hmembers : Forest.dots forests.flatten ≤
            (parts.map fun part => part.toList.count '.').sum := by
          clear hkind hparts
          induction hforests with
          | nil => exact Nat.le_refl _
          | cons hfirst _ ih =>
            rw [List.flatten_cons, Forest.dots_append, List.map_cons, List.sum_cons]
            omega
        rw [sum_count_members hparts] at hmembers
        exact Nat.le_trans hmembers (count_interior_le token)
    rw [List.map_cons, List.map_cons, List.sum_cons, List.sum_cons]
    omega

theorem dots_le_of_readChain {text : String} {forest : List Node}
    (h : readChain text = .ok forest) : Forest.dots forest ≤ text.toList.count '.' := by
  refine readChain_induction
    (motive := fun text forest => Forest.dots forest ≤ text.toList.count '.') ?_ h
  intro text tokens links htokens hlinks
  have hne : links ≠ [] := by
    rintro rfl
    obtain ⟨-, htokens⟩ := splitOutside_eq_ok_iff.mp htokens
    rw [List.forall₂_nil_right_iff.mp hlinks] at htokens
    exact cut_ne_nil _ _ _ (List.map_eq_nil_iff.mp htokens.symm)
  have hlt := dots_assemble_lt hne
  have hle := sum_dots_le hlinks
  have hsum := sum_count_tokens htokens
  omega

/-- A text with several roots that need all its dots is a single token: links behind an array would
leave a dot over, and links behind a name would leave one root. -/
theorem length_tokens_eq_one {text : String} {forest : List Node}
    (h : readChain text = .ok forest) (hroots : forest.length ≠ 1)
    (hdots : text.toList.count '.' ≤ Forest.dots forest) {tokens : List String}
    (htokens : splitChain text = .ok tokens) : tokens.length = 1 := by
  obtain ⟨links, hlinks, rfl⟩ := (readChain_eq_ok_iff_of_split htokens).mp h
  have hreads := forall₂_imp_of_mem hlinks fun token _ link hread =>
    readsLink_of_readLink hread fun part forest _ hpart => dots_le_of_readChain hpart
  have hle := sum_dots_le hreads
  have hsum := sum_count_tokens htokens
  rw [hlinks.length_eq]
  match links with
  | [] =>
    rw [List.forall₂_nil_right_iff.mp hlinks] at hsum
    simp at hsum
  | [link] => rfl
  | .name name :: next :: rest => simp at hroots
  | .group members :: next :: rest =>
    have hlt := dots_assemble_lt (List.cons_ne_nil next rest)
    rw [assemble_group, Forest.dots_append] at hdots
    rw [List.map_cons, List.sum_cons, Link.dots_group] at hle
    omega

end Prefetch
