import Prefetch.ExpressionCoverage
import Prefetch.Proofs.AdmittedPaths
import Mathlib.Data.Fintype.EquivFin

/-!
# Coverage as inclusion of admitted paths

If every list of names that `r` admits is admitted by `f`, then `f` covers `r`. In the other
direction coverage stops at the first name that repeats itself on both sides, and the names after
it go unseen. Where a repeating node is always the last among its siblings there are none, and then
coverage is kept by every step that `r` can take: `f` can take the same step, and what is behind it
covers what is behind it in `r`. So whatever `r` admits is admitted by `f`.

Inclusion of paths is a preorder. So is coverage, as far as it agrees with it.
-/

namespace Prefetch

mutual

def Node.repeatsLast : Node → Bool
  | ⟨_, children⟩ => Forest.repeatsLast children

def Forest.repeatsLast : List Node → Bool
  | [] => true
  | node :: rest =>
    (!node.repeats || rest.isEmpty) && node.repeatsLast && Forest.repeatsLast rest

end

theorem Forest.repeatsLast_iff {forest : List Node} :
    Forest.repeatsLast forest = true ↔
      (∀ node ∈ forest.dropLast, node.repeats = false) ∧
        ∀ node ∈ forest, Forest.repeatsLast node.children = true := by
  induction forest with
  | nil => simp [Forest.repeatsLast]
  | cons node rest ih =>
    obtain ⟨name, children⟩ := node
    simp only [Forest.repeatsLast, Node.repeatsLast, Bool.and_eq_true, ih]
    cases rest with
    | nil => simp
    | cons next rest =>
      simp only [List.isEmpty_cons, Bool.or_false, Bool.not_eq_true', List.dropLast_cons_cons,
        List.forall_mem_cons]
      constructor
      · rintro ⟨⟨hnode, hchildren⟩, hlast, hrest⟩
        exact ⟨⟨hnode, hlast⟩, hchildren, hrest⟩
      · rintro ⟨⟨hnode, hlast⟩, hchildren, hrest⟩
        exact ⟨⟨hnode, hchildren⟩, hlast, hrest⟩

namespace Expression

/-- At every depth, a repeating node is the last among its siblings. -/
def repeatsLast (e : Expression) : Bool := Forest.repeatsLast e.nodes

theorem exists_fresh_name (names : List String) : ∃ name, name ∉ names := by
  have hinfinite : Infinite String := Infinite.of_injective String.ofList fun _ _ h =>
    String.ofList_injective h
  obtain ⟨name, hname⟩ := Infinite.exists_notMem_finset names.toFinset
  exact ⟨name, fun hmem => hname (List.mem_toFinset.mpr hmem)⟩

theorem selectsAll_of_admits {e : Expression} (h : ∀ name, e.Admits [name]) :
    e.selectsAll = true := by
  by_contra hall
  rw [Bool.not_eq_true] at hall
  obtain ⟨name, hfresh⟩ := exists_fresh_name e.rootNames
  obtain ⟨sub, hstep, -⟩ := admits_cons_iff.mp (h name)
  exact hfresh (mem_rootNames_of_step hall hstep)

theorem coversNames_of_forall {f r : Expression} (hall : r.selectsAll = false)
    {names : List String}
    (h : ∀ name ∈ names, f.settles r name = false →
      ∃ own sub, f.step name = some own ∧ r.step name = some sub ∧ own.covers sub = true) :
    f.coversNames r hall names = true := by
  induction names with
  | nil => exact coversNames_nil hall
  | cons name names ih =>
    rw [coversNames_cons]
    cases hs : f.settles r name with
    | true => rfl
    | false =>
      obtain ⟨own, sub, hown, hsub, hcovers⟩ := h name List.mem_cons_self hs
      have hrest := ih fun other hother => h other (List.mem_cons_of_mem _ hother)
      simp [hown, hsub, hcovers, hrest]

theorem covers_of_admits {f r : Expression}
    (h : ∀ names, r.Admits names → f.Admits names) : f.covers r = true := by
  induction hn : f.size + r.size using Nat.strongRecOn generalizing f r with
  | _ n ih =>
    subst hn
    cases hall : r.selectsAll with
    | true =>
      rw [covers_of_selectsAll hall]
      exact selectsAll_of_admits fun name => h [name] (admits_of_selectsAll hall [name])
    | false =>
      rw [covers_of_not_selectsAll hall]
      refine coversNames_of_forall hall fun name hname hs => ?_
      obtain ⟨sub, hsub⟩ := exists_step_of_mem_rootNames hname
      have hadmits : ∀ names, sub.Admits names → f.Admits (name :: names) := fun names hnames =>
        h _ (admits_cons_iff.mpr ⟨sub, hsub, hnames⟩)
      obtain ⟨own, hown, -⟩ := admits_cons_iff.mp (hadmits [] (admits_nil sub))
      refine ⟨own, sub, hown, hsub, ih _ (size_add_size_lt hall hs hown hsub) ?_ rfl⟩
      intro names hnames
      obtain ⟨own', hown', hrest⟩ := admits_cons_iff.mp (hadmits names hnames)
      rw [hown] at hown'
      cases hown'
      exact hrest

theorem repeatsLast_step {e sub : Expression} {name : String} (h : e.repeatsLast = true)
    (hstep : e.step name = some sub) : sub.repeatsLast = true := by
  obtain ⟨-, rfl⟩ | ⟨-, node, hroot, hsub⟩ := step_cases hstep
  · exact h
  · have hchildren := (Forest.repeatsLast_iff.mp h).2 node (mem_of_root? hroot)
    rcases hsub with ⟨-, rfl⟩ | ⟨-, rfl⟩
    · exact Forest.repeatsLast_iff.mpr ⟨by simp, by simpa using hchildren⟩
    · exact hchildren

theorem repeats_eq_false_of_mem_dropLast {e : Expression} (h : e.repeatsLast = true)
    {name : String} (hname : name ∈ e.rootNames.dropLast) : e.repeats name = false := by
  have hinit := (Forest.repeatsLast_iff.mp h).1
  rw [rootNames, ← List.map_dropLast] at hname
  obtain ⟨node, hmem, rfl⟩ := List.mem_map.mp hname
  obtain ⟨first, hfirst⟩ := exists_find?_key Node.name hmem
  have hroot : e.root? node.name = some first := by
    have hne : e.nodes ≠ [] := by
      rintro hnil
      simp [hnil] at hmem
    rw [root?, ← List.dropLast_append_getLast hne, List.find?_append, hfirst, Option.some_or]
  simp [repeats, hroot, hinit first (List.mem_of_find?_eq_some hfirst)]

/-- A name that settles the comparison repeats itself, so no name is left behind it. -/
theorem eq_nil_of_settles {f r : Expression} {name : String} {names : List String}
    (hlast : ∀ other ∈ (name :: names).dropLast, r.repeats other = false)
    (hs : f.settles r name = true) : names = [] := by
  have hrepeats : r.repeats name = true := by
    simp only [settles, Bool.and_eq_true] at hs
    exact hs.1
  by_contra hne
  have hmem : name ∈ (name :: names).dropLast := by
    rw [List.dropLast_cons_of_ne_nil hne]
    exact List.mem_cons_self
  simp [hlast name hmem] at hrepeats

theorem forall_of_coversNames {f r : Expression} (hall : r.selectsAll = false)
    {names : List String} (hlast : ∀ name ∈ names.dropLast, r.repeats name = false)
    (h : f.coversNames r hall names = true) :
    ∀ name ∈ names, f.settles r name = true ∨
      ∃ own sub, f.step name = some own ∧ r.step name = some sub ∧ own.covers sub = true := by
  induction names with
  | nil => simp
  | cons name names ih =>
    rw [coversNames_cons] at h
    cases hs : f.settles r name with
    | true =>
      obtain rfl := eq_nil_of_settles hlast hs
      intro other hother
      rw [List.mem_singleton.mp hother]
      exact .inl hs
    | false =>
      rw [hs, Bool.false_or] at h
      split at h
      case h_1 own sub hown hsub =>
        rw [Bool.and_eq_true] at h
        intro other hother
        rcases List.mem_cons.mp hother with rfl | hother
        · exact .inr ⟨own, sub, hown, hsub, h.1⟩
        · refine ih (fun other' hother' => hlast other' ?_) h.2 other hother
          rw [List.dropLast_cons_of_ne_nil (List.ne_nil_of_mem hother)]
          exact List.mem_cons_of_mem _ hother'
      case h_2 => cases h

theorem covers_singleton_of_repeats {own sub : Node} (hname : own.name = sub.name)
    (hown : own.repeats = true) (hsub : sub.repeats = true) :
    (⟨[own]⟩ : Expression).covers ⟨[sub]⟩ = true := by
  cases hall : (⟨[sub]⟩ : Expression).selectsAll with
  | true =>
    rw [covers_of_selectsAll hall]
    simpa [selectsAll, hname] using hall
  | false =>
    rw [covers_of_not_selectsAll hall]
    have hs : (⟨[own]⟩ : Expression).settles ⟨[sub]⟩ sub.name = true := by
      simp [settles, repeats, root?, hname, hown, hsub]
    refine coversNames_of_forall hall fun name hmem hfalse => ?_
    rw [List.mem_singleton.mp hmem, hs] at hfalse
    cases hfalse

theorem exists_covers_of_settles {f r sub : Expression} {name : String}
    (hall : r.selectsAll = false) (hs : f.settles r name = true)
    (hsub : r.step name = some sub) :
    ∃ own, f.step name = some own ∧ own.covers sub = true := by
  simp only [settles, Bool.and_eq_true, Bool.or_eq_true] at hs
  obtain ⟨hr, hf⟩ := hs
  cases hfall : f.selectsAll with
  | true =>
    refine ⟨f, step_of_selectsAll hfall name, covers_of_admits fun names _ => ?_⟩
    exact admits_of_selectsAll hfall names
  | false =>
    have hf : f.repeats name = true := by simpa [hfall] using hf
    obtain ⟨node, hroot, rfl⟩ := (step_eq_some_iff hall).mp hsub
    simp only [repeats, hroot] at hr
    cases hown : f.root? name with
    | none => simp [repeats, hown] at hf
    | some own =>
      simp only [repeats, hown] at hf
      refine ⟨⟨[own]⟩, (step_eq_some_iff hfall).mpr ⟨own, hown, by rw [if_pos hf]⟩, ?_⟩
      rw [if_pos hr]
      have hname : own.name = node.name := (name_of_root? hown).trans (name_of_root? hroot).symm
      exact covers_singleton_of_repeats hname hf hr

/-- Whatever step `r` can take, `f` can take it too, and coverage goes on behind it. -/
theorem exists_covers_of_step {f r sub : Expression} {name : String} (h : r.repeatsLast = true)
    (hcovers : f.covers r = true) (hsub : r.step name = some sub) :
    ∃ own, f.step name = some own ∧ own.covers sub = true := by
  cases hall : r.selectsAll with
  | true =>
    rw [covers_of_selectsAll hall] at hcovers
    rw [step_of_selectsAll hall] at hsub
    cases hsub
    refine ⟨f, step_of_selectsAll hcovers name, ?_⟩
    rw [covers_of_selectsAll hall, hcovers]
  | false =>
    rw [covers_of_not_selectsAll hall] at hcovers
    have hnames := forall_of_coversNames hall
      (fun _ hname => repeats_eq_false_of_mem_dropLast h hname) hcovers
    rcases hnames name (mem_rootNames_of_step hall hsub) with hs | ⟨own, sub', hown, hsub', hc⟩
    · exact exists_covers_of_settles hall hs hsub
    · rw [hsub] at hsub'
      cases hsub'
      exact ⟨own, hown, hc⟩

theorem admits_of_covers {f r : Expression} (h : r.repeatsLast = true)
    (hcovers : f.covers r = true) {names : List String} (hnames : r.Admits names) :
    f.Admits names := by
  induction names generalizing f r with
  | nil => exact admits_nil f
  | cons name names ih =>
    obtain ⟨sub, hsub, hrest⟩ := admits_cons_iff.mp hnames
    obtain ⟨own, hown, hsubCovers⟩ := exists_covers_of_step h hcovers hsub
    exact admits_cons_iff.mpr ⟨own, hown, ih (repeatsLast_step h hsub) hsubCovers hrest⟩

/-- Coverage decides whether the paths that `r` admits are admitted by `f`. It never misses an
inclusion, and it is right about one if repeating nodes stand last in `r`. -/
theorem covers_decides_inclusion (f r : Expression) :
    ((∀ names, r.Admits names → f.Admits names) → f.covers r = true) ∧
      (r.repeatsLast = true → f.covers r = true → ∀ names, r.Admits names → f.Admits names) :=
  ⟨covers_of_admits, fun h hcovers _ hnames => admits_of_covers h hcovers hnames⟩

/-- `[c.^, a.[b.*, e]]` covers `[a.b.d, c.^]`. -/
theorem covers_decides_inclusion_family :
    let f : Expression := ⟨[⟨"c", [⟨"^", []⟩]⟩, ⟨"a", [⟨"b", [⟨"*", []⟩]⟩, ⟨"e", []⟩]⟩]⟩
    let r : Expression := ⟨[⟨"a", [⟨"b", [⟨"d", []⟩]⟩]⟩, ⟨"c", [⟨"^", []⟩]⟩]⟩
    r.repeatsLast = true ∧ f.covers r = true ∧ ∀ names, r.Admits names → f.Admits names := by
  intro f r
  have hlast : r.repeatsLast = true := by decide
  have hcovers : f.covers r = true := by cbv
  exact ⟨hlast, hcovers, (covers_decides_inclusion f r).2 hlast hcovers⟩

-- A repeating node with a sibling behind it hides that sibling.
example :
    let f : Expression := ⟨[⟨"a", [⟨"^", []⟩]⟩]⟩
    let r : Expression := ⟨[⟨"a", [⟨"^", []⟩]⟩, ⟨"b", []⟩]⟩
    f.covers r = true ∧ f.step "b" = none ∧ (r.step "b").isSome := by
  cbv

/-- Every expression covers itself. What covers `g` covers all that `g` covers, if repeating nodes
stand last in `g` and in what `g` covers. -/
theorem covers_preorder :
    (∀ e : Expression, e.covers e = true) ∧
      ∀ f g h : Expression, g.repeatsLast = true → h.repeatsLast = true →
        f.covers g = true → g.covers h = true → f.covers h = true := by
  constructor
  · intro e
    exact covers_of_admits fun _ hnames => hnames
  · intro f g h hg hh hfg hgh
    apply covers_of_admits
    intro names hnames
    have hmiddle : g.Admits names := admits_of_covers hh hgh hnames
    exact admits_of_covers hg hfg hmiddle

/-- `a.*` covers `a.a.^`, and this covers `a.a.a`. -/
theorem covers_preorder_chain :
    let f : Expression := ⟨[⟨"a", [⟨"*", []⟩]⟩]⟩
    let g : Expression := ⟨[⟨"a", [⟨"a", [⟨"^", []⟩]⟩]⟩]⟩
    let h : Expression := ⟨[⟨"a", [⟨"a", [⟨"a", []⟩]⟩]⟩]⟩
    f.covers f = true ∧ g.repeatsLast = true ∧ h.repeatsLast = true ∧
      f.covers g = true ∧ g.covers h = true ∧ f.covers h = true := by
  intro f g h
  have hg : g.repeatsLast = true := by decide
  have hh : h.repeatsLast = true := by decide
  have hfg : f.covers g = true := by cbv
  have hgh : g.covers h = true := by cbv
  obtain ⟨hself, htrans⟩ := covers_preorder
  exact ⟨hself f, hg, hh, hfg, hgh, htrans f g h hg hh hfg hgh⟩

-- Transitivity fails if a sibling stands behind a repeating node of the middle expression: it went
-- unseen when `f` was compared with `g`.
example :
    let f : Expression := ⟨[⟨"a", [⟨"^", []⟩]⟩]⟩
    let g : Expression := ⟨[⟨"a", [⟨"^", []⟩]⟩, ⟨"b", []⟩]⟩
    let h : Expression := ⟨[⟨"b", []⟩]⟩
    h.repeatsLast = true ∧ f.covers g = true ∧ g.covers h = true ∧ f.covers h = false := by
  cbv

-- It fails as well if one stands behind a repeating node of the last expression: seen from `a.^` it
-- is hidden, seen from `a.*` it is not.
example :
    let f : Expression := ⟨[⟨"a", [⟨"*", []⟩]⟩]⟩
    let g : Expression := ⟨[⟨"a", [⟨"^", []⟩]⟩]⟩
    let h : Expression := ⟨[⟨"a", [⟨"^", []⟩]⟩, ⟨"b", []⟩]⟩
    g.repeatsLast = true ∧ f.covers g = true ∧ g.covers h = true ∧ f.covers h = false := by
  cbv

end Expression

end Prefetch
