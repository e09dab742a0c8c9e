import Prefetch.Proofs.NestedBrackets
import Prefetch.Proofs.PaddedText
import Prefetch.Proofs.TextRoundTrip

/-!
# The grammar of expressions

    chain   := item ("." item)*
    item    := blanks name blanks | blanks "[" members "]" blanks
    members := chain ("," chain)*

The names are simple: without separators and brackets. A derivation is a tree of the grammar. It
has a text, and it denotes a forest: a name is a node with the rest of the chain below it, and the
members of an array stand in front of the rest of the chain.

The parser accepts more than this grammar, since a name may also hold brackets and separators. On
forests of simple names the two agree. A derivation is read item by item. In the other direction,
the tokens of a text that can be read are items once the blanks around them are put back.
-/

namespace Prefetch

/-- A name that is not empty, has no blanks at its ends, and holds no separator and no bracket. -/
structure IsSimple (name : String) : Prop where
  ne_empty : name ≠ ""
  trimmed : trim name.toList = name.toList
  unmarked : ∀ c ∈ name.toList, c ≠ '.' ∧ c ≠ ',' ∧ c ≠ '[' ∧ c ≠ ']'

theorem isSimple_iff {name : String} :
    IsSimple name ↔ name ≠ "" ∧ trim name.toList = name.toList ∧
      name.toList.all (fun c => c ≠ '.' ∧ c ≠ ',' ∧ c ≠ '[' ∧ c ≠ ']') = true := by
  simp only [List.all_eq_true, decide_eq_true_eq]
  exact ⟨fun h => ⟨h.ne_empty, h.trimmed, h.unmarked⟩,
    fun ⟨hne, htrim, hunmarked⟩ => ⟨hne, htrim, hunmarked⟩⟩

instance : DecidablePred IsSimple := fun _ => decidable_of_iff _ isSimple_iff.symm

namespace Derivation

structure Blanks where
  text : List Char
  blank : ∀ c ∈ text, isBlank c = true

structure SimpleName where
  name : String
  simple : IsSimple name

mutual

/-- Items divided by dots. -/
inductive Chain where
  | last (item : Item)
  | link (item : Item) (rest : Chain)

/-- A name or an array, with blanks around it. -/
inductive Item where
  | name (before : Blanks) (word : SimpleName) (after : Blanks)
  | array (before : Blanks) (members : Members) (after : Blanks)

/-- The chains of an array, divided by commas. -/
inductive Members where
  | last (chain : Chain)
  | more (chain : Chain) (rest : Members)

end

mutual

def Chain.text : Chain → List Char
  | .last item => item.text
  | .link item rest => item.text ++ '.' :: rest.text

def Item.text : Item → List Char
  | .name before word after => before.text ++ word.name.toList ++ after.text
  | .array before members after => before.text ++ bracketed members.text ++ after.text

def Members.text : Members → List Char
  | .last chain => chain.text
  | .more chain rest => chain.text ++ ',' :: rest.text

end

mutual

def Chain.forest : Chain → List Node
  | .last item => item.forest []
  | .link item rest => item.forest rest.forest

/-- The forest that an item denotes in front of items that denote the given one. -/
def Item.forest : Item → List Node → List Node
  | .name _ word _, below => [⟨word.name, below⟩]
  | .array _ members _, behind => members.forest ++ behind

def Members.forest : Members → List Node
  | .last chain => chain.forest
  | .more chain rest => chain.forest ++ rest.forest

end

theorem SimpleName.depthStep_eq_zero (word : SimpleName) :
    ∀ c ∈ word.name.toList, depthStep c = 0 := by
  intro c hc
  obtain ⟨-, -, hopen, hclose⟩ := word.simple.unmarked c hc
  simp [depthStep, hopen, hclose]

theorem Blanks.isNested (blanks : Blanks) : IsNested blanks.text :=
  .of_forall_depthStep fun c hc => depthStep_of_isBlank (blanks.blank c hc)

mutual

theorem Chain.isNested : ∀ chain : Chain, IsNested chain.text
  | .last item => item.isNested
  | .link item rest => item.isNested.append_cons rfl rest.isNested

theorem Item.isNested : ∀ item : Item, IsNested item.text
  | .name before word after =>
    (before.isNested.append (.of_forall_depthStep word.depthStep_eq_zero)).append after.isNested
  | .array before members after =>
    (before.isNested.append members.isNested.bracketed).append after.isNested

theorem Members.isNested : ∀ members : Members, IsNested members.text
  | .last chain => chain.isNested
  | .more chain rest => chain.isNested.append_cons rfl rest.isNested

end

theorem Item.not_mem_depths (item : Item) {c : Char} (hc : c = '.' ∨ c = ',') :
    (c, 0) ∉ depths 0 item.text := by
  have hblanks : ∀ blanks : Blanks, (c, 0) ∉ depths 0 blanks.text := by
    intro blanks
    apply not_mem_depths_of_not_mem
    intro hmem
    have hblank := blanks.blank c hmem
    rcases hc with rfl | rfl <;> exact absurd hblank (by decide)
  have hpadded : ∀ (before after : Blanks) (core : List Char), IsNested core →
      (c, 0) ∉ depths 0 core → (c, 0) ∉ depths 0 (before.text ++ core ++ after.text) := by
    intro before after core hnested hcore
    exact (before.isNested.append hnested).not_mem_depths_append
      (before.isNested.not_mem_depths_append (hblanks before) hcore) (hblanks after)
  cases item with
  | name before word after =>
    have hword : (c, 0) ∉ depths 0 word.name.toList := by
      apply not_mem_depths_of_not_mem
      intro hmem
      obtain ⟨hdot, hcomma, -, -⟩ := word.simple.unmarked c hmem
      exact hc.elim hdot hcomma
    exact hpadded before after _ (.of_forall_depthStep word.depthStep_eq_zero) hword
  | array before members after =>
    have harray : (c, 0) ∉ depths 0 (bracketed members.text) := by
      apply members.isNested.not_mem_depths_bracketed
      rcases hc with rfl | rfl <;> decide
    exact hpadded before after _ members.isNested.bracketed harray

theorem Chain.not_mem_depths : ∀ chain : Chain, (',', 0) ∉ depths 0 chain.text
  | .last item => item.not_mem_depths (.inr rfl)
  | .link item rest => by
    have hdot : (',', 0) ∉ depths 0 ('.' :: rest.text) := by
      rw [depths, List.mem_cons, not_or]
      exact ⟨by decide, rest.not_mem_depths⟩
    exact item.isNested.not_mem_depths_append (item.not_mem_depths (.inr rfl)) hdot

end Derivation

def Link.forest : Link → List Node → List Node
  | .name text, below => [⟨text, below⟩]
  | .group members, behind => members ++ behind

theorem assemble_cons (link : Link) (links : List Link) :
    assemble (link :: links) = link.forest (assemble links) := by
  cases link with
  | name name => exact assemble_name name links
  | group members => exact assemble_group members links

section ReadChain

variable {first : List Char} {link : Link} (hnet : netDepth first = 0)
  (hdot : ('.', 0) ∉ depths 0 first) (hlink : readLink (String.ofList (trim first)) = .ok link)

include hnet hdot hlink

/-- A text in which no dot divides is a chain of one link. -/
theorem readChain_of_link : readChain (String.ofList first) = .ok (link.forest []) := by
  have hsplit : splitChain (String.ofList first) = .ok [String.ofList (trim first)] := by
    refine splitOutside_eq_ok_iff.mpr ⟨by rwa [String.toList_ofList], ?_⟩
    rw [String.toList_ofList, cut_of_not_mem (by decide) hdot, List.map_singleton]
  exact readChain_eq_ok_iff.mpr
    ⟨_, [link], hsplit, .cons hlink .nil, (assemble_cons link []).symm⟩

theorem readChain_link_append {rest : List Char} {forest : List Node}
    (hrest : readChain (String.ofList rest) = .ok forest) :
    readChain (String.ofList (first ++ '.' :: rest)) = .ok (link.forest forest) := by
  obtain ⟨tokens, links, htokens, hlinks, rfl⟩ := readChain_eq_ok_iff.mp hrest
  obtain ⟨hnet', rfl⟩ := splitOutside_eq_ok_iff.mp htokens
  rw [String.toList_ofList] at hnet' hlinks
  have hsplit : splitChain (String.ofList (first ++ '.' :: rest)) =
      .ok (String.ofList (trim first) ::
        (cut (· == '.') 0 rest).map fun piece => String.ofList (trim piece)) := by
    refine splitOutside_eq_ok_iff.mpr ⟨?_, ?_⟩
    · rw [String.toList_ofList, netDepth_append, hnet, netDepth, hnet']
      rfl
    · rw [String.toList_ofList, cut_append_separator (by decide) (by simpa using hnet),
        cut_of_not_mem (by decide) hdot]
      rfl
  exact readChain_eq_ok_iff.mpr
    ⟨_, link :: links, hsplit, .cons hlink hlinks, (assemble_cons link links).symm⟩

end ReadChain

namespace Derivation

theorem SimpleName.kind_eq_plain (word : SimpleName) :
    (Token.classify word.name).kind = .plain := by
  have hnot : ¬ (2 ≤ word.name.toList.length ∧ word.name.toList.head? = some '[' ∧
      word.name.toList.getLast? = some ']') := by
    rintro ⟨-, hhead, -⟩
    exact (word.simple.unmarked '[' (List.mem_of_mem_head? hhead)).2.2.1 rfl
  simp only [Token.classify, Token.kindOf, if_neg hnot]

mutual

theorem Chain.readChain_text : ∀ chain : Chain,
    readChain (String.ofList chain.text) = .ok chain.forest
  | .last item => by
    obtain ⟨link, hlink, hforest⟩ := item.readLink_text
    rw [Chain.text, Chain.forest, hforest]
    exact readChain_of_link item.isNested.balanced (item.not_mem_depths (.inl rfl)) hlink
  | .link item rest => by
    obtain ⟨link, hlink, hforest⟩ := item.readLink_text
    rw [Chain.text, Chain.forest, hforest]
    exact readChain_link_append item.isNested.balanced (item.not_mem_depths (.inl rfl)) hlink
      rest.readChain_text

theorem Item.readLink_text : ∀ item : Item,
    ∃ link, readLink (String.ofList (trim item.text)) = .ok link ∧ item.forest = link.forest
  | .name before word after => by
    refine ⟨.name word.name, ?_, ?_⟩
    · rw [Item.text, trim_append_right after.blank, trim_append_left before.blank,
        word.simple.trimmed, String.ofList_toList]
      exact readLink_of_plain word.kind_eq_plain word.simple.ne_empty
    · funext below
      rw [Item.forest, Link.forest]
  | .array before members after => by
    obtain ⟨forests, hforests, hflatten⟩ := members.readChain_text
    refine ⟨.group forests.flatten, ?_, ?_⟩
    · have hnet := members.isNested.balanced
      have harray : (String.ofList (bracketed members.text)).toList = bracketed members.text :=
        String.toList_ofList
      rw [Item.text, trim_append_right after.blank, trim_append_left before.blank,
        (isBlock_bracketed hnet).trimmed, readLink_eq_ok_iff_of_array (kind_bracketed harray)]
      refine ⟨_, forests, splitMembers_eq_ok_iff.mpr ⟨?_, rfl⟩, ?_, rfl⟩
      · rwa [interior_bracketed harray]
      · rwa [interior_bracketed harray]
    · funext behind
      rw [Item.forest, Link.forest, hflatten]

theorem Members.readChain_text : ∀ members : Members,
    ∃ forests, List.Forall₂ (fun part forest => readChain part = .ok forest)
        (membersOf members.text) forests ∧ forests.flatten = members.forest
  | .last chain => by
    refine ⟨[chain.forest], ?_, ?_⟩
    · rw [Members.text, membersOf_of_not_mem chain.not_mem_depths]
      exact .cons ((readChain_trim_iff chain.text).mpr chain.readChain_text) .nil
    · rw [Members.forest, List.flatten_singleton]
  | .more chain rest => by
    obtain ⟨forests, hforests, hflatten⟩ := rest.readChain_text
    refine ⟨chain.forest :: forests, ?_, ?_⟩
    · rw [Members.text, membersOf_append_comma chain.isNested.balanced,
        membersOf_of_not_mem chain.not_mem_depths]
      exact .cons ((readChain_trim_iff chain.text).mpr chain.readChain_text) hforests
    · rw [Members.forest, List.flatten_cons, hflatten]

end

def Blanks.append (blanks more : Blanks) : Blanks where
  text := blanks.text ++ more.text
  blank := by
    intro c hc
    rcases List.mem_append.mp hc with hc | hc
    · exact blanks.blank c hc
    · exact more.blank c hc

def Item.padStart (blanks : Blanks) : Item → Item
  | .name before word after => .name (blanks.append before) word after
  | .array before members after => .array (blanks.append before) members after

def Item.padEnd (blanks : Blanks) : Item → Item
  | .name before word after => .name before word (after.append blanks)
  | .array before members after => .array before members (after.append blanks)

def Chain.padStart (blanks : Blanks) : Chain → Chain
  | .last item => .last (item.padStart blanks)
  | .link item rest => .link (item.padStart blanks) rest

def Chain.padEnd (blanks : Blanks) : Chain → Chain
  | .last item => .last (item.padEnd blanks)
  | .link item rest => .link item (rest.padEnd blanks)

theorem Chain.text_padStart (blanks : Blanks) (chain : Chain) :
    (chain.padStart blanks).text = blanks.text ++ chain.text := by
  have hitem : ∀ item : Item, (item.padStart blanks).text = blanks.text ++ item.text := by
    intro item
    cases item with
    | name before word after => simp [Item.padStart, Item.text, Blanks.append]
    | array before members after => simp [Item.padStart, Item.text, Blanks.append]
  cases chain with
  | last item => exact hitem item
  | link item rest => simp [Chain.padStart, Chain.text, hitem]

theorem Chain.text_padEnd (blanks : Blanks) : ∀ chain : Chain,
    (chain.padEnd blanks).text = chain.text ++ blanks.text
  | .last item => by
    cases item with
    | name before word after =>
      simp [Chain.padEnd, Item.padEnd, Chain.text, Item.text, Blanks.append]
    | array before members after =>
      simp [Chain.padEnd, Item.padEnd, Chain.text, Item.text, Blanks.append]
  | .link item rest => by simp [Chain.padEnd, Chain.text, rest.text_padEnd blanks]

theorem Chain.forest_padStart (blanks : Blanks) (chain : Chain) :
    (chain.padStart blanks).forest = chain.forest := by
  have hitem : ∀ item : Item, (item.padStart blanks).forest = item.forest := by
    intro item
    funext below
    cases item with
    | name before word after => simp [Item.padStart, Item.forest]
    | array before members after => simp [Item.padStart, Item.forest]
  cases chain with
  | last item => simp [Chain.padStart, Chain.forest, hitem]
  | link item rest => simp [Chain.padStart, Chain.forest, hitem]

theorem Chain.forest_padEnd (blanks : Blanks) : ∀ chain : Chain,
    (chain.padEnd blanks).forest = chain.forest
  | .last item => by
    cases item with
    | name before word after => simp [Chain.padEnd, Item.padEnd, Chain.forest, Item.forest]
    | array before members after => simp [Chain.padEnd, Item.padEnd, Chain.forest, Item.forest]
  | .link item rest => by simp [Chain.padEnd, Chain.forest, rest.forest_padEnd blanks]

/-- The forest can be derived from the text, if its names are simple. -/
def Derives (text : String) (forest : List Node) : Prop :=
  Forest.AllNames IsSimple forest →
    ∃ chain : Chain, chain.text = text.toList ∧ chain.forest = forest

theorem exists_chain_of_trim {piece : List Char} {forest : List Node}
    (h : Derives (String.ofList (trim piece)) forest) (hsimple : Forest.AllNames IsSimple forest) :
    ∃ chain : Chain, chain.text = piece ∧ chain.forest = forest := by
  obtain ⟨chain, htext, hforest⟩ := h hsimple
  obtain ⟨before, after, hpiece, hbefore, hafter⟩ := exists_append_trim piece
  refine ⟨(chain.padStart ⟨before, hbefore⟩).padEnd ⟨after, hafter⟩, ?_, ?_⟩
  · rw [Chain.text_padEnd, Chain.text_padStart, htext, String.toList_ofList]
    exact hpiece.symm
  · rw [Chain.forest_padEnd, Chain.forest_padStart, hforest]

end Derivation

theorem Forest.allNames_append {P : String → Prop} {forest rest : List Node} :
    Forest.AllNames P (forest ++ rest) ↔ Forest.AllNames P forest ∧ Forest.AllNames P rest := by
  simp only [Forest.allNames_iff, List.forall_mem_append]

theorem exists_bracketed_of_kind {token : String} (h : (Token.classify token).kind = .array) :
    ∃ text, token.toList = bracketed text := by
  simp only [Token.classify, Token.kindOf] at h
  split at h
  case isFalse => cases h
  case isTrue harray =>
    obtain ⟨hlength, hhead, hlast⟩ := harray
    generalize token.toList = text at hlength hhead hlast
    cases text with
    | nil => cases hhead
    | cons c text =>
      cases hhead
      have hne : text ≠ [] := by
        rintro rfl
        simp at hlength
      rw [List.getLast?_cons_of_ne_nil hne, List.getLast?_eq_some_getLast hne] at hlast
      refine ⟨text.dropLast, ?_⟩
      rw [bracketed, List.cons_append, ← Option.some.inj hlast,
        List.dropLast_concat_getLast hne]

namespace Derivation

/-- Pieces from which the members can be derived, joined by commas, are the text of members. -/
theorem exists_members {pieces : List (List Char)} {forests : List (List Node)}
    (h : List.Forall₂ (fun piece forest => Derives (String.ofList (trim piece)) forest)
      pieces forests)
    (hne : pieces ≠ []) (hsimple : Forest.AllNames IsSimple forests.flatten) :
    ∃ members : Members, members.text = [','].intercalate pieces ∧
      members.forest = forests.flatten := by
  induction h with
  | nil => exact absurd rfl hne
  | @cons piece forest pieces forests hfirst hrest ih =>
    rw [List.flatten_cons, Forest.allNames_append] at hsimple
    obtain ⟨chain, htext, hforest⟩ := exists_chain_of_trim hfirst hsimple.1
    cases hrest with
    | nil => exact ⟨.last chain, by simpa [Members.text] using htext,
        by simpa [Members.forest] using hforest⟩
    | cons _ _ =>
      obtain ⟨members, hmembers, hflatten⟩ := ih (List.cons_ne_nil _ _) hsimple.2
      refine ⟨.more chain members, ?_, ?_⟩
      · rw [Members.text, htext, hmembers, List.intercalate_cons_cons]
        simp
      · rw [Members.forest, hforest, hflatten]
        rfl

/-- A piece whose token stands for a link is the text of an item that denotes the same. -/
theorem exists_item {piece : List Char} {link : Link} {links : List Link}
    (h : ReadsLink Derives (String.ofList (trim piece)) link)
    (hsimple : Forest.AllNames IsSimple (link.forest (assemble links))) :
    ∃ item : Item, item.text = piece ∧ item.forest = link.forest := by
  obtain ⟨before, after, hpiece, hbefore, hafter⟩ := exists_append_trim piece
  generalize htoken : String.ofList (trim piece) = token at h
  have htrim : trim piece = token.toList := by rw [← htoken, String.toList_ofList]
  cases h with
  | name hkind hne =>
    refine ⟨.name ⟨before, hbefore⟩ ⟨token, hsimple.1.1⟩ ⟨after, hafter⟩, ?_, ?_⟩
    · rw [Item.text, ← htrim]
      exact hpiece.symm
    · funext below
      rw [Item.forest, Link.forest]
  | @group parts forests hkind hparts hforests =>
    obtain ⟨text, hbracketed⟩ := exists_bracketed_of_kind hkind
    obtain ⟨-, hmembersOf⟩ := splitMembers_eq_ok_iff.mp hparts
    rw [hmembersOf, interior_bracketed hbracketed, membersOf, List.forall₂_map_left_iff]
      at hforests
    obtain ⟨members, hmembers, hflatten⟩ := exists_members hforests (cut_ne_nil _ _ _)
      (Forest.allNames_append.mp hsimple).1
    rw [intercalate_cut (by decide)] at hmembers
    refine ⟨.array ⟨before, hbefore⟩ members ⟨after, hafter⟩, ?_, ?_⟩
    · rw [Item.text, hmembers, ← hbracketed, ← htrim]
      exact hpiece.symm
    · funext behind
      rw [Item.forest, Link.forest, hflatten]

/-- Pieces whose tokens stand for links, joined by dots, are the text of a chain. -/
theorem exists_chain {pieces : List (List Char)} {links : List Link}
    (h : List.Forall₂ (fun piece link => ReadsLink Derives (String.ofList (trim piece)) link)
      pieces links)
    (hne : pieces ≠ []) (hsimple : Forest.AllNames IsSimple (assemble links)) :
    ∃ chain : Chain, chain.text = ['.'].intercalate pieces ∧ chain.forest = assemble links := by
  induction h with
  | nil => exact absurd rfl hne
  | @cons piece link pieces links hlink hlinks ih =>
    rw [assemble_cons] at hsimple
    obtain ⟨item, htext, hforest⟩ := exists_item hlink hsimple
    have hrest : Forest.AllNames IsSimple (assemble links) := by
      cases link with
      | name name => exact hsimple.1.2
      | group members => exact (Forest.allNames_append.mp hsimple).2
    cases hlinks with
    | nil =>
      refine ⟨.last item, by simpa [Chain.text] using htext, ?_⟩
      rw [Chain.forest, hforest, assemble_cons, assemble_nil]
    | cons _ _ =>
      obtain ⟨chain, hchain, hbelow⟩ := ih (List.cons_ne_nil _ _) hrest
      refine ⟨.link item chain, ?_, ?_⟩
      · rw [Chain.text, htext, hchain, List.intercalate_cons_cons]
        simp
      · rw [Chain.forest, hforest, hbelow]
        exact (assemble_cons link _).symm

/-- Whatever is read as a forest of simple names can be derived. -/
theorem derives_of_readChain {text : String} {forest : List Node}
    (h : readChain text = .ok forest) : Derives text forest := by
  refine readChain_induction (motive := Derives) ?_ h
  intro text tokens links htokens hlinks hsimple
  obtain ⟨-, rfl⟩ := splitOutside_eq_ok_iff.mp htokens
  rw [List.forall₂_map_left_iff] at hlinks
  obtain ⟨chain, htext, hforest⟩ := exists_chain hlinks (cut_ne_nil _ _ _) hsimple
  rw [intercalate_cut (by decide)] at htext
  exact ⟨chain, htext, hforest⟩

end Derivation

/-- A text that is not empty is read as a given forest of simple names if and only if the grammar
has a derivation of the text that denotes the forest. -/
theorem Expression.parse_eq_ok_iff_derivation {text : String} (hne : text ≠ "") {e : Expression}
    (hsimple : Forest.AllNames IsSimple e.nodes) :
    Expression.parse text = .ok e ↔
      ∃ chain : Derivation.Chain, chain.text = text.toList ∧ chain.forest = e.nodes := by
  rw [Expression.parse_of_ne_empty hne]
  constructor
  · intro hread
    exact Derivation.derives_of_readChain hread hsimple
  · rintro ⟨chain, htext, hforest⟩
    have hread := chain.readChain_text
    rwa [htext, String.ofList_toList, hforest] at hread

/-- Blanks around names and arrays, members with links of their own, and links behind an array. -/
theorem Expression.parse_eq_ok_iff_derivation_padded :
    let text := " a .[b c , [d.e]. f ]\t.g"
    let e : Expression := ⟨[⟨"a", [⟨"b c", []⟩, ⟨"d", [⟨"e", []⟩]⟩, ⟨"f", []⟩, ⟨"g", []⟩]⟩]⟩
    Forest.AllNames IsSimple e.nodes ∧ Expression.parse text = .ok e ∧
      ∃ chain : Derivation.Chain, chain.text = text.toList ∧ chain.forest = e.nodes := by
  intro text e
  have hnames : ∀ name ∈ ["a", "b c", "d", "e", "f", "g"], IsSimple name := by decide +kernel
  have hsimple : Forest.AllNames IsSimple e.nodes := by
    simp [e, Forest.AllNames, Node.AllNames, hnames]
  have hne : text ≠ "" := by decide
  have hparse : Expression.parse text = .ok e := by decide +kernel
  exact ⟨hsimple, hparse, (Expression.parse_eq_ok_iff_derivation hne hsimple).mp hparse⟩

end Prefetch
