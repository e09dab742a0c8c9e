import Prefetch.ExpressionText
import Prefetch.Proofs.ShieldedNames
import Mathlib.Algebra.BigOperators.Group.List.Basic

/-!
# Reading the canonical text back

An expression that was read from a text is read back from its canonical text if and only if its
names are shielded by the brackets that the canonical text puts around them.

That the condition suffices is an induction over trees. For its necessity, a comma that divides
gives more members than there were siblings. A dot that divides a bracketed text would put links
behind an array, and then fewer dots are left than the names and the nodes with children need.
-/

namespace Prefetch

theorem Node.inductionOn {motive : Node → Prop}
    (step : ∀ name children, (∀ child ∈ children, motive child) → motive ⟨name, children⟩)
    (node : Node) : motive node := by
  have hforest : ∀ forest : List Node, ∀ node ∈ forest, motive node := by
    intro forest
    induction forest using Forest.inductionOn with
    | nil => simp
    | cons name children rest hchildren hrest =>
      intro node hnode
      rcases List.mem_cons.mp hnode with rfl | hnode
      · exact step name children hchildren
      · exact hrest node hnode
  exact hforest [node] node List.mem_cons_self

theorem Node.text_leaf (name : String) : (⟨name, []⟩ : Node).text = name := by
  simp [Node.text, Forest.texts, linkText]

theorem Node.text_of_ne_nil (name : String) {children : List Node} (h : children ≠ []) :
    (⟨name, children⟩ : Node).text = name ++ "." ++ bundle (children.map Node.text) := by
  cases children with
  | nil => exact absurd rfl h
  | cons child rest =>
    rw [Node.text, Forest.texts_eq_map, List.map_cons]
    rfl

theorem Node.toList_text_of_ne_nil (name : String) {children : List Node} (h : children ≠ []) :
    (⟨name, children⟩ : Node).text.toList =
      name.toList ++ '.' :: (bundle (children.map Node.text)).toList := by
  simp [Node.text_of_ne_nil name h]

theorem toList_bundle {texts : List String} (h : 2 ≤ texts.length) :
    (bundle texts).toList = bracketed ([',', ' '].intercalate (texts.map String.toList)) := by
  match texts with
  | [] => simp at h
  | [text] => simp at h
  | first :: second :: rest => simp [bundle, bracketed]

theorem netDepth_toList {texts : List String} (h : ∀ text ∈ texts, IsBlock text.toList) :
    ∀ text ∈ texts.map String.toList, netDepth text = 0 := by
  intro text htext
  obtain ⟨source, hsource, rfl⟩ := List.mem_map.mp htext
  exact (h source hsource).balanced

theorem isBlock_bundle {texts : List String} (hne : texts ≠ [])
    (h : ∀ text ∈ texts, IsBlock text.toList) : IsBlock (bundle texts).toList := by
  by_cases hlength : 2 ≤ texts.length
  · rw [toList_bundle hlength]
    apply isBlock_bracketed
    apply netDepth_joined
    exact netDepth_toList h
  · rcases texts with _ | ⟨text, _ | ⟨next, rest⟩⟩
    · exact absurd rfl hne
    · exact h text List.mem_cons_self
    · simp at hlength

theorem Node.isBlock_text {node : Node} (h : node.AllNames IsAtom) :
    IsBlock node.text.toList := by
  induction node using Node.inductionOn with
  | step name children ih =>
    have hname : IsAtom name := h.1
    by_cases hne : children = []
    · rw [hne, Node.text_leaf]
      exact hname.isBlock
    · have hchildren : IsBlock (bundle (children.map Node.text)).toList := by
        apply isBlock_bundle (by simpa using hne)
        intro text htext
        obtain ⟨child, hchild, rfl⟩ := List.mem_map.mp htext
        exact ih child hchild (Forest.allNames_iff.mp h.2 child hchild)
      rw [Node.toList_text_of_ne_nil name hne, List.append_cons]
      exact hname.isBlock.append hchildren rfl

theorem count_joined (texts : List (List Char)) :
    ([',', ' '].intercalate texts).count '.' = (texts.map (·.count '.')).sum := by
  induction texts with
  | nil => rfl
  | cons first rest ih =>
    cases rest with
    | nil => simp
    | cons next rest =>
      rw [List.intercalate_cons_cons, List.count_append, List.count_append, ih]
      simp

theorem count_bundle (texts : List String) :
    (bundle texts).toList.count '.' = (texts.map fun text => text.toList.count '.').sum := by
  by_cases hlength : 2 ≤ texts.length
  · rw [toList_bundle hlength, bracketed, List.count_append, List.count_cons, count_joined,
      List.map_map]
    rfl
  · rcases texts with _ | ⟨text, _ | ⟨next, rest⟩⟩
    · rfl
    · simp [bundle]
    · simp at hlength

theorem Forest.dots_eq_sum (forest : List Node) :
    Forest.dots forest = (forest.map Node.dots).sum := by
  induction forest with
  | nil => rfl
  | cons node rest ih => simp [Forest.dots, ih]

theorem Node.count_text (node : Node) : node.text.toList.count '.' = node.dots := by
  induction node using Node.inductionOn with
  | step name children ih =>
    by_cases hne : children = []
    · simp [hne, Node.text_leaf, Node.dots, Forest.dots]
    · have hsum : (children.map fun child => child.text.toList.count '.').sum =
          Forest.dots children := by
        rw [Forest.dots_eq_sum, List.map_congr_left ih]
      rw [Node.toList_text_of_ne_nil name hne, List.count_append, List.count_cons, count_bundle,
        List.map_map]
      simp only [Function.comp_def, hsum, Node.dots, List.isEmpty_iff, hne, if_false,
        beq_self_eq_true, if_true]
      omega

theorem splitChain_atom {name : String} (h : IsAtom name) : splitChain name = .ok [name] := by
  refine splitOutside_eq_ok_iff.mpr ⟨h.balanced, ?_⟩
  rw [cut_of_not_mem (by decide) h.undotted, List.map_singleton, h.trimmed, String.ofList_toList]

theorem readLink_atom {name : String} (h : IsAtom name) : readLink name = .ok (.name name) :=
  readLink_of_plain h.plain h.ne_empty

theorem readChain_atom {name : String} (h : IsAtom name) : readChain name = .ok [⟨name, []⟩] :=
  readChain_eq_ok_iff.mpr ⟨[name], [.name name], splitChain_atom h, .cons (readLink_atom h) .nil,
    by simp⟩

/-- A name and a dot in front of a text put a root above what the text denotes. -/
theorem readChain_link_iff {name text : String} (h : IsAtom name) {forest : List Node} :
    readChain (name ++ "." ++ text) = .ok [⟨name, forest⟩] ↔ readChain text = .ok forest := by
  have hlist : (name ++ "." ++ text).toList = name.toList ++ '.' :: text.toList := by simp
  have hcut : cut (· == '.') 0 (name.toList ++ '.' :: text.toList) =
      name.toList :: cut (· == '.') 0 text.toList := by
    rw [cut_append_separator (by decide) (by simpa using h.balanced),
      cut_of_not_mem (by decide) h.undotted]
    rfl
  have hsplit : ∀ tokens, splitChain (name ++ "." ++ text) = .ok tokens ↔
      ∃ rest, splitChain text = .ok rest ∧ tokens = name :: rest := by
    intro tokens
    simp only [splitChain, splitOutside_eq_ok_iff, hlist, hcut, netDepth_append, h.balanced,
      List.map_cons, h.trimmed, String.ofList_toList, netDepth,
      show depthStep '.' = 0 from rfl, Int.zero_add]
    constructor
    · rintro ⟨hnet, rfl⟩
      exact ⟨_, ⟨hnet, rfl⟩, rfl⟩
    · rintro ⟨rest, ⟨hnet, rfl⟩, rfl⟩
      exact ⟨hnet, rfl⟩
  simp only [readChain_eq_ok_iff, hsplit]
  constructor
  · rintro ⟨tokens, links, ⟨rest, hrest, rfl⟩, hlinks, hforest⟩
    obtain ⟨link, links', hlink, hlinks', rfl⟩ := List.forall₂_cons_left_iff.mp hlinks
    rw [readLink_atom h] at hlink
    cases hlink
    rw [assemble_name] at hforest
    refine ⟨rest, links', hrest, hlinks', ?_⟩
    exact (Node.mk.inj (List.cons.inj hforest).1).2
  · rintro ⟨tokens, links, htokens, hlinks, rfl⟩
    exact ⟨name :: tokens, .name name :: links, ⟨tokens, htokens, rfl⟩,
      .cons (readLink_atom h) hlinks, by simp⟩

theorem forall_eq_one_of_sum_le {counts : List Nat} (hpos : ∀ n ∈ counts, 1 ≤ n)
    (hsum : counts.sum ≤ counts.length) : ∀ n ∈ counts, n = 1 := by
  induction counts with
  | nil => simp
  | cons first rest ih =>
    have hfirst := hpos first List.mem_cons_self
    have hrest : rest.length ≤ rest.sum :=
      List.length_le_sum_of_one_le rest fun n hn => hpos n (List.mem_cons_of_mem _ hn)
    rw [List.sum_cons, List.length_cons] at hsum
    intro n hn
    rcases List.mem_cons.mp hn with rfl | hn
    · omega
    · exact ih (fun m hm => hpos m (List.mem_cons_of_mem _ hm)) (by omega) n hn

/-- Positive numbers are all one if they add up to the length of a second list of such numbers, and
these to the length of the first. -/
theorem forall_eq_one_of_sum_eq {counts counts' : List Nat} (hpos : ∀ n ∈ counts, 1 ≤ n)
    (hpos' : ∀ n ∈ counts', 1 ≤ n) (hsum : counts.sum = counts'.length)
    (hsum' : counts'.sum = counts.length) :
    (∀ n ∈ counts, n = 1) ∧ ∀ n ∈ counts', n = 1 := by
  have hle := List.length_le_sum_of_one_le counts hpos
  have hle' := List.length_le_sum_of_one_le counts' hpos'
  constructor
  · exact forall_eq_one_of_sum_le hpos (by omega)
  · exact forall_eq_one_of_sum_le hpos' (by omega)

theorem membersOf_joined_of_not_mem {texts : List String} (hne : texts ≠ [])
    (hblock : ∀ text ∈ texts, IsBlock text.toList)
    (hcomma : ∀ text ∈ texts, (',', 0) ∉ depths 0 text.toList) :
    membersOf ([',', ' '].intercalate (texts.map String.toList)) = texts := by
  have hsingle : ∀ text ∈ texts, membersOf text.toList = [text] := by
    intro text htext
    rw [membersOf_of_not_mem (hcomma text htext), (hblock text htext).trimmed,
      String.ofList_toList]
  rw [membersOf_joined (by simpa using hne) (netDepth_toList hblock), List.flatMap_map,
    List.flatMap_congr hsingle, List.flatMap_singleton']

theorem eq_map_singleton_flatten {forests : List (List Node)}
    (h : ∀ forest ∈ forests, forest.length = 1) :
    forests = forests.flatten.map fun node => [node] := by
  induction forests with
  | nil => rfl
  | cons first rest ih =>
    obtain ⟨node, rfl⟩ := List.length_eq_one_iff.mp (h first List.mem_cons_self)
    have hrest := ih fun forest hforest => h forest (List.mem_cons_of_mem _ hforest)
    rw [List.flatten_cons, List.singleton_append, List.map_cons, ← hrest]

theorem forall₂_singletons_iff {forest : List Node} :
    List.Forall₂ (fun part nodes => readChain part = .ok nodes) (forest.map Node.text)
        (forest.map fun node => [node]) ↔
      ∀ node ∈ forest, readChain node.text = .ok [node] := by
  rw [List.forall₂_map_left_iff, List.forall₂_map_right_iff, List.forall₂_same]

section Siblings

variable {siblings : List Node}

/-- If siblings are read back from between their brackets, then no comma of theirs divides a member,
since there would be more roots than siblings. -/
theorem forall_of_read_members (hblock : ∀ node ∈ siblings, IsBlock node.text.toList)
    {forests : List (List Node)} (hne : siblings ≠ [])
    (hforests : List.Forall₂ (fun part forest => readChain part = .ok forest)
      (membersOf ([',', ' '].intercalate ((siblings.map Node.text).map String.toList))) forests)
    (hflatten : siblings = forests.flatten) :
    (∀ node ∈ siblings, (',', 0) ∉ depths 0 node.text.toList) ∧
      ∀ node ∈ siblings, readChain node.text = .ok [node] := by
  have hnet := netDepth_toList (List.forall_mem_map.mpr hblock)
  have hmembers := membersOf_joined (by simpa using hne) hnet
  -- the members of each sibling, and the roots of each member, are at least one
  have hcounts : (siblings.map fun node => (membersOf node.text.toList).length).sum =
      forests.length := by
    rw [← hforests.length_eq, hmembers, List.length_flatMap, List.map_map, List.map_map]
    simp [Function.comp_def]
  have hroots : (forests.map List.length).sum = siblings.length := by
    rw [hflatten, List.length_flatten]
  have hone : ∀ n ∈ siblings.map fun node => (membersOf node.text.toList).length, 1 ≤ n := by
    intro n hn
    obtain ⟨node, -, rfl⟩ := List.mem_map.mp hn
    exact List.length_pos_iff.mpr (membersOf_ne_nil _)
  have hone' : ∀ n ∈ forests.map List.length, 1 ≤ n := by
    intro n hn
    obtain ⟨forest, hforest, rfl⟩ := List.mem_map.mp hn
    obtain ⟨part, -, hread⟩ := exists_of_mem_right hforests hforest
    exact List.length_pos_iff.mpr (ne_nil_of_readChain hread)
  obtain ⟨hmembersOne, hrootsOne⟩ := forall_eq_one_of_sum_eq hone hone'
    (by rw [hcounts, List.length_map]) (by rw [hroots, List.length_map])
  have hcomma : ∀ node ∈ siblings, (',', 0) ∉ depths 0 node.text.toList := by
    intro node hnode hmem
    have hlt := one_lt_length_membersOf hmem
    have heq := hmembersOne _ (List.mem_map.mpr ⟨node, hnode, rfl⟩)
    omega
  have hsingle : ∀ forest ∈ forests, forest.length = 1 := by
    intro forest hforest
    exact hrootsOne _ (List.mem_map.mpr ⟨forest, hforest, rfl⟩)
  refine ⟨hcomma, forall₂_singletons_iff.mp ?_⟩
  rw [membersOf_joined_of_not_mem (by simpa using hne) (by simpa using hblock)
    (by simpa using hcomma), eq_map_singleton_flatten hsingle, ← hflatten] at hforests
  exact hforests

/-- Siblings are read back from between their brackets if and only if each of them is read back,
and no comma of theirs divides a member and no dot of theirs divides the bracketed text. -/
theorem readChain_bundle_iff (hlength : 2 ≤ siblings.length)
    (hblock : ∀ node ∈ siblings, IsBlock node.text.toList) :
    readChain (bundle (siblings.map Node.text)) = .ok siblings ↔
      ∀ node ∈ siblings, shielded 1 node.text.toList = true ∧
        readChain node.text = .ok [node] := by
  have hsource : (bundle (siblings.map Node.text)).toList =
      bracketed ([',', ' '].intercalate ((siblings.map Node.text).map String.toList)) :=
    toList_bundle (by simpa using hlength)
  have hnet := netDepth_toList (List.forall_mem_map.mpr hblock)
  have hdot : ('.', 0) ∉ depths 0 (bundle (siblings.map Node.text)).toList ↔
      ∀ node ∈ siblings, ('.', -1) ∉ depths 0 node.text.toList := by
    rw [hsource, mem_depths_bracketed_joined hnet (by decide) (by decide)]
    simp
  have hne : siblings ≠ [] := by
    rintro rfl
    simp at hlength
  have hbalanced : netDepth (bundle (siblings.map Node.text)).toList = 0 := by
    rw [hsource, netDepth_bracketed, netDepth_joined hnet]
  have hcount : (bundle (siblings.map Node.text)).toList.count '.' = Forest.dots siblings := by
    rw [count_bundle, Forest.dots_eq_sum, List.map_map]
    exact congrArg List.sum (List.map_congr_left fun node _ => Node.count_text node)
  constructor
  · intro hread
    have hundotted : ('.', 0) ∉ depths 0 (bundle (siblings.map Node.text)).toList := by
      intro hmem
      have hcut := one_lt_length_cut (by decide) hmem
      have hone := length_tokens_eq_one hread (by omega) hcount.le
        (splitOutside_eq_ok_iff.mpr ⟨hbalanced, rfl⟩)
      rw [List.length_map] at hone
      omega
    obtain ⟨forests, hforests, hflatten⟩ :=
      (readChain_bracketed_iff hsource (netDepth_joined hnet) hundotted).mp hread
    obtain ⟨hcomma, hreads⟩ := forall_of_read_members hblock hne hforests hflatten
    intro node hnode
    exact ⟨shielded_one_iff.mpr ⟨hcomma node hnode, hdot.mp hundotted node hnode⟩,
      hreads node hnode⟩
  · intro h
    have hundotted := hdot.mpr fun node hnode => (shielded_one_iff.mp (h node hnode).1).2
    refine (readChain_bracketed_iff hsource (netDepth_joined hnet) hundotted).mpr
      ⟨siblings.map fun node => [node], ?_, by rw [← List.flatMap_def, List.flatMap_singleton']⟩
    rw [membersOf_joined_of_not_mem (by simpa using hne) (by simpa using hblock)]
    · exact forall₂_singletons_iff.mpr fun node hnode => (h node hnode).2
    · intro text htext
      obtain ⟨node, hnode, rfl⟩ := List.mem_map.mp htext
      exact (shielded_one_iff.mp (h node hnode).1).1

end Siblings

theorem shielded_readChain_bundle_iff {siblings : List Node} (hne : siblings ≠ [])
    (hblock : ∀ node ∈ siblings, IsBlock node.text.toList)
    (hnode : ∀ node ∈ siblings, ∀ brackets,
      shielded brackets node.text.toList = true ∧ readChain node.text = .ok [node] ↔
        node.shielded brackets = true) (brackets : Nat) :
    shielded brackets (bundle (siblings.map Node.text)).toList = true ∧
        readChain (bundle (siblings.map Node.text)) = .ok siblings ↔
      Forest.shielded (brackets + Forest.brackets siblings) siblings = true := by
  rw [Forest.shielded_iff]
  by_cases hlength : 2 ≤ siblings.length
  · have hbrackets : Forest.brackets siblings = 1 := if_pos hlength
    have hshield := shielded_bracketed_iff brackets
      (netDepth_toList (List.forall_mem_map.mpr hblock))
    rw [← toList_bundle (by simpa using hlength)] at hshield
    simp only [List.forall_mem_map] at hshield
    rw [readChain_bundle_iff hlength hblock, hbrackets]
    constructor
    · rintro ⟨hwhole, heach⟩ node hmem
      have hmore := hshield.mp ⟨hwhole, fun node hmem => (heach node hmem).1⟩ node hmem
      exact (hnode node hmem (brackets + 1)).mp ⟨hmore, (heach node hmem).2⟩
    · intro heach
      have hmore : ∀ node ∈ siblings, shielded (brackets + 1) node.text.toList = true ∧
          readChain node.text = .ok [node] :=
        fun node hmem => (hnode node hmem (brackets + 1)).mpr (heach node hmem)
      obtain ⟨hwhole, hone⟩ := hshield.mpr fun node hmem => (hmore node hmem).1
      exact ⟨hwhole, fun node hmem => ⟨hone node hmem, (hmore node hmem).2⟩⟩
  · have hbrackets : Forest.brackets siblings = 0 := if_neg hlength
    have hpos := List.length_pos_iff.mpr hne
    obtain ⟨node, rfl⟩ := List.length_eq_one_iff.mp (show siblings.length = 1 by omega)
    rw [hbrackets]
    simpa [bundle] using hnode node List.mem_cons_self brackets

/-- Between brackets, a tree whose names are atoms is read back from its text, with nothing in it
that would divide there, if and only if its names are shielded. -/
theorem Node.shielded_readChain_text_iff {node : Node} (h : node.AllNames IsAtom)
    (brackets : Nat) :
    Prefetch.shielded brackets node.text.toList = true ∧ readChain node.text = .ok [node] ↔
      node.shielded brackets = true := by
  induction node using Node.inductionOn generalizing brackets with
  | step name children ih =>
    have hname : IsAtom name := h.1
    have hatoms := Forest.allNames_iff.mp h.2
    by_cases hne : children = []
    · subst hne
      rw [Node.text_leaf]
      simp [Node.shielded, Forest.shielded, readChain_atom hname]
    · have hchildren := shielded_readChain_bundle_iff hne
        (fun child hchild => Node.isBlock_text (hatoms child hchild))
        (fun child hchild brackets => ih child hchild (hatoms child hchild) brackets) brackets
      rw [Node.toList_text_of_ne_nil name hne, Node.text_of_ne_nil name hne,
        shielded_link_iff hname.balanced, readChain_link_iff hname, and_assoc, hchildren,
        Node.shielded, Bool.and_eq_true]

theorem Expression.parse_of_ne_empty {text : String} (h : text ≠ "") {e : Expression} :
    Expression.parse text = .ok e ↔ readChain text = .ok e.nodes := by
  rw [Expression.parse, if_neg h]
  constructor
  · intro hparse
    cases hread : readChain text with
    | ok nodes =>
      rw [hread] at hparse
      cases hparse
      rfl
    | error fault =>
      rw [hread] at hparse
      cases hparse
  · intro hread
    rw [hread]

/-- An expression that was read from a text is read back from its canonical text if and only if its
names are shielded there. -/
theorem Expression.parse_text_eq_iff {source : String} {e : Expression}
    (h : Expression.parse source = .ok e) :
    Expression.parse e.text = .ok e ↔ e.shielded = true := by
  by_cases hsource : source = ""
  · subst hsource
    cases h
    simp [Expression.parse, Expression.text, Expression.empty, Expression.shielded, Forest.texts,
      Forest.shielded, bundle]
  · have hread := (Expression.parse_of_ne_empty hsource).mp h
    have hne := ne_nil_of_readChain hread
    have hatoms := Forest.allNames_iff.mp (allNames_isAtom_of_readChain hread)
    have hblock : ∀ node ∈ e.nodes, IsBlock node.text.toList :=
      fun node hnode => Node.isBlock_text (hatoms node hnode)
    have htext : e.text = bundle (e.nodes.map Node.text) := by
      rw [Expression.text, Forest.texts_eq_map]
    have hnonempty : e.text ≠ "" := by
      have htexts : IsBlock (bundle (e.nodes.map Node.text)).toList :=
        isBlock_bundle (by simpa using hne) (by simpa using hblock)
      rw [htext]
      simpa using htexts.ne_nil
    rw [Expression.parse_of_ne_empty hnonempty, htext, Expression.shielded,
      ← Nat.zero_add (Forest.brackets e.nodes),
      ← shielded_readChain_bundle_iff hne hblock
        (fun node hnode => Node.shielded_readChain_text_iff (hatoms node hnode)) 0,
      shielded_zero, eq_self_iff_true, true_and]

/-- Names with brackets, commas and dots of their own can be shielded. -/
theorem Expression.parse_text_eq_iff_indexed :
    Expression.parse "a.[b, x[1.0,2]].c" =
        .ok ⟨[⟨"a", [⟨"b", []⟩, ⟨"x[1.0,2]", []⟩, ⟨"c", []⟩]⟩]⟩ ∧
      Expression.parse "a.[b, x[1.0,2], c]" =
        .ok ⟨[⟨"a", [⟨"b", []⟩, ⟨"x[1.0,2]", []⟩, ⟨"c", []⟩]⟩]⟩ := by
  have h : Expression.parse "a.[b, x[1.0,2]].c" =
      .ok ⟨[⟨"a", [⟨"b", []⟩, ⟨"x[1.0,2]", []⟩, ⟨"c", []⟩]⟩]⟩ := by decide +kernel
  refine ⟨h, ?_⟩
  have htext := (Expression.parse_text_eq_iff h).mpr (by decide +kernel)
  exact htext

/-- A comma of a name that no bracket of its own encloses divides the name in the canonical text. -/
theorem Expression.parse_text_ne_of_comma :
    ∃ e : Expression, Expression.parse "[x].a,b" = .ok e ∧ e.text = "[x, a,b]" ∧
      Expression.parse e.text = .ok ⟨[⟨"x", []⟩, ⟨"a", []⟩, ⟨"b", []⟩]⟩ ∧
      Expression.parse e.text ≠ .ok e := by
  refine ⟨⟨[⟨"x", []⟩, ⟨"a,b", []⟩]⟩, ?_⟩
  decide +kernel

end Prefetch
