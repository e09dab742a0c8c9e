import Prefetch.Diagnostic
import Mathlib.Data.List.Basic

/-!
# The segments of a path

A path is written with dots between the names, without the empty names at its front. Where no name
is empty or holds a dot, each of them is one segment of the path, and the path can be split into
them again. One such path then leads on from another if and only if its names start with those of
the other: a name that merely starts with the last name of the other path has no dot at that place.
So a report is searched below a path by whole names.
-/

namespace Prefetch

namespace DottedPath

/-- A name that makes one segment of a path. -/
structure IsSegment (name : String) : Prop where
  ne_empty : name ≠ ""
  dot_notMem : '.' ∉ name.toList

instance : DecidablePred IsSegment := fun name =>
  decidable_of_iff (name ≠ "" ∧ '.' ∉ name.toList) ⟨fun h => ⟨h.1, h.2⟩, fun h => ⟨h.1, h.2⟩⟩

def segments (path : String) : List String := (path.toList.splitOn '.').map String.ofList

theorem foldl_extend {start : String} (hstart : start ≠ "") (names : List String) :
    names.foldl extend start = ".".intercalate (start :: names) := by
  induction names generalizing start with
  | nil => rw [String.intercalate_singleton, List.foldl_nil]
  | cons name rest ih =>
    have hnext : extend start name = start ++ "." ++ name := if_neg hstart
    have hne : start ++ "." ++ name ≠ "" := by simp
    rw [List.foldl_cons, hnext, ih hne, String.intercalate_cons_cons]
    cases rest with
    | nil => rw [String.intercalate_singleton, String.intercalate_singleton]
    | cons next rest =>
      rw [String.intercalate_cons_cons, String.intercalate_cons_cons]
      simp only [String.append_assoc]

/-- A path is its names joined by dots, without the empty ones at the front. -/
theorem ofNames_eq (names : List String) :
    ofNames names = ".".intercalate (names.dropWhile (· == "")) := by
  induction names with
  | nil => rfl
  | cons name rest ih =>
    -- nothing is written before an empty name, so the next one is still at the front
    by_cases hname : name = ""
    · subst hname
      exact ih
    · rw [List.dropWhile_cons_of_neg (by simpa using hname)]
      exact foldl_extend hname rest

theorem segments_intercalate {names : List String} (hne : names ≠ [])
    (h : ∀ name ∈ names, '.' ∉ name.toList) : segments (".".intercalate names) = names := by
  have hdots : ∀ text ∈ names.map String.toList, '.' ∉ text := by
    intro text htext
    obtain ⟨name, hname, rfl⟩ := List.mem_map.mp htext
    exact h name hname
  have hsplit : (['.'].intercalate (names.map String.toList)).splitOn '.' =
      names.map String.toList :=
    List.splitOn_intercalate '.' hdots (by simpa using hne)
  have hdot : ".".toList = ['.'] := rfl
  rw [segments, String.toList_intercalate, hdot, hsplit, List.map_map]
  simp [Function.comp_def]

theorem segments_ofNames {names : List String} (hne : names ≠ [])
    (h : ∀ name ∈ names, IsSegment name) : segments (ofNames names) = names := by
  rw [ofNames_eq]
  cases names with
  | nil => exact absurd rfl hne
  | cons name rest =>
    have hname := (h name List.mem_cons_self).ne_empty
    rw [List.dropWhile_cons_of_neg (by simpa using hname)]
    exact segments_intercalate hne fun other hother => (h other hother).dot_notMem

theorem segments_append (front back : String) :
    segments (front ++ "." ++ back) = segments front ++ segments back := by
  have htext : (front ++ "." ++ back).toList = front.toList ++ '.' :: back.toList := by
    simp [String.toList_append]
  rw [segments, htext, List.splitOn_append_cons_self, List.map_append]
  rfl

theorem isWithin_iff {ancestor path : String} :
    isWithin ancestor path = true ↔
      ancestor = "" ∨ path = ancestor ∨ ∃ rest, path = ancestor ++ "." ++ rest := by
  have hprefix : (ancestor ++ ".").toList <+: path.toList ↔
      ∃ rest, path = ancestor ++ "." ++ rest := by
    constructor
    · intro h
      obtain ⟨rest, hrest⟩ := h
      refine ⟨String.ofList rest, ?_⟩
      rw [← String.toList_inj, String.toList_append, String.toList_ofList, hrest]
    · intro h
      obtain ⟨rest, rfl⟩ := h
      rw [String.toList_append (s := ancestor ++ ".")]
      exact List.prefix_append _ _
  rw [isWithin, Bool.or_eq_true, Bool.or_eq_true, beq_iff_eq, beq_iff_eq,
    List.isPrefixOf_iff_prefix, hprefix, or_assoc]

theorem isWithin_of_append {names more : List String} {path : String}
    (h : isWithin (".".intercalate (names ++ more)) path = true) :
    isWithin (".".intercalate names) path = true := by
  by_cases hnames : names = []
  · rw [hnames, isWithin_iff]
    exact .inl rfl
  by_cases hmore : more = []
  · rwa [hmore, List.append_nil] at h
  rw [isWithin_iff, String.intercalate_append_of_ne_nil hnames hmore] at h
  rw [isWithin_iff]
  rcases h with hempty | hsame | ⟨rest, hrest⟩
  · simp at hempty
  · exact .inr (.inr ⟨_, hsame⟩)
  · refine .inr (.inr ⟨".".intercalate more ++ "." ++ rest, ?_⟩)
    rw [hrest]
    simp only [String.append_assoc]

theorem intercalate_eq_empty_iff {names : List String} (h : ∀ name ∈ names, IsSegment name) :
    ".".intercalate names = "" ↔ names = [] := by
  cases names with
  | nil => simp
  | cons name rest =>
    have hname := (h name List.mem_cons_self).ne_empty
    cases rest with
    | nil => simp [hname]
    | cons next rest => simp

/-- A path of segments is within another if and only if the names of the other are its first
ones. -/
theorem isWithin_intercalate_iff {names others : List String}
    (h : ∀ name ∈ names, IsSegment name) (hothers : ∀ name ∈ others, IsSegment name) :
    isWithin (".".intercalate names) (".".intercalate others) = true ↔ names <+: others := by
  constructor
  · intro hwithin
    by_cases hnames : names = []
    · rw [hnames]
      exact List.nil_prefix
    have hnonempty : ".".intercalate names ≠ "" := by
      rwa [Ne, intercalate_eq_empty_iff h]
    have hsplit : segments (".".intercalate names) = names :=
      segments_intercalate hnames fun name hname => (h name hname).dot_notMem
    -- the other path is not empty either, so it is split into its names as well
    have hothersSplit : ".".intercalate others ≠ "" →
        segments (".".intercalate others) = others := by
      intro hne
      apply segments_intercalate
      · intro hnil
        exact hne (by rw [hnil, String.intercalate_nil])
      · intro name hname
        exact (hothers name hname).dot_notMem
    rcases isWithin_iff.mp hwithin with hempty | hsame | ⟨rest, hrest⟩
    · exact absurd hempty hnonempty
    · rw [hsame, hsplit] at hothersSplit
      exact hothersSplit hnonempty ▸ List.prefix_rfl
    · rw [hrest, segments_append, hsplit] at hothersSplit
      rw [← hothersSplit (by simp)]
      exact List.prefix_append _ _
  · intro hprefix
    obtain ⟨more, rfl⟩ := hprefix
    have hself : isWithin (".".intercalate (names ++ more)) (".".intercalate (names ++ more)) =
        true := isWithin_iff.mpr (.inr (.inl rfl))
    exact isWithin_of_append hself

end DottedPath

namespace Report

/-- The diagnostics are searched below a path by its names. If no name is empty or holds a dot, a
path is within another if and only if its names start with those of the other, so of a report whose
paths are made of such names exactly the diagnostics at a path and below it are found, in the order
of the report. Whatever the names and the report, no more is found below a longer path. -/
theorem under_segments :
    (∀ names others : List String, (∀ name ∈ names, DottedPath.IsSegment name) →
      (∀ name ∈ others, DottedPath.IsSegment name) →
        (DottedPath.isWithin (".".intercalate names) (".".intercalate others) = true ↔
          names <+: others)) ∧
    (∀ (report : Report) (namesOf : Diagnostic → List String),
      (∀ diagnostic ∈ report.diagnostics,
        (∀ name ∈ namesOf diagnostic, DottedPath.IsSegment name) ∧
          diagnostic.path = ".".intercalate (namesOf diagnostic)) →
      ∀ names : List String, (∀ name ∈ names, DottedPath.IsSegment name) →
        report.under (".".intercalate names) =
          report.diagnostics.filter fun diagnostic => names.isPrefixOf (namesOf diagnostic)) ∧
    ∀ (report : Report) (names more : List String),
      (report.under (".".intercalate (names ++ more))).Sublist
        (report.under (".".intercalate names)) := by
  refine ⟨?_, ?_, ?_⟩
  · intro names others h hothers
    exact DottedPath.isWithin_intercalate_iff h hothers
  · intro report namesOf hpaths names h
    apply List.filter_congr
    intro diagnostic hdiagnostic
    obtain ⟨hsegments, hpath⟩ := hpaths diagnostic hdiagnostic
    rw [Bool.eq_iff_iff, hpath, DottedPath.isWithin_intercalate_iff h hsegments,
      List.isPrefixOf_iff_prefix]
  · intro report names more
    apply List.monotone_filter_right
    intro diagnostic hwithin
    exact DottedPath.isWithin_of_append hwithin

/-- The text of `movies2` starts with `movies`, but the first of its names is another one. -/
theorem under_segments_movies :
    let remark (path : String) : Diagnostic := ⟨"unknown_relation", "", path, .warning⟩
    let report : Report :=
      ⟨[remark "movies2", remark "movies.actors.pets", remark "", remark "movies"]⟩
    let namesOf (diagnostic : Diagnostic) : List String :=
      if diagnostic.path = "" then [] else DottedPath.segments diagnostic.path
    DottedPath.isWithin "movies" "movies.actors.pets" = true ∧
    DottedPath.isWithin "movies" "movies2" = false ∧
    (∀ diagnostic ∈ report.diagnostics,
      (∀ name ∈ namesOf diagnostic, DottedPath.IsSegment name) ∧
        diagnostic.path = ".".intercalate (namesOf diagnostic)) ∧
    (∀ name ∈ ["movies"], DottedPath.IsSegment name) ∧
    report.under "movies" = [remark "movies.actors.pets", remark "movies"] ∧
    (report.under "movies.actors").Sublist (report.under "movies") := by
  intro remark report namesOf
  have hnames : ∀ name ∈ ["movies"], DottedPath.IsSegment name := by decide
  have hpaths : ∀ diagnostic ∈ report.diagnostics,
      (∀ name ∈ namesOf diagnostic, DottedPath.IsSegment name) ∧
        diagnostic.path = ".".intercalate (namesOf diagnostic) := by
    decide +kernel
  obtain ⟨hwithin, hunder, hlonger⟩ := under_segments
  refine ⟨?_, ?_, hpaths, hnames, ?_, hlonger report ["movies"] ["actors"]⟩
  · exact (hwithin ["movies"] ["movies", "actors", "pets"] hnames (by decide)).mpr (by decide)
  · rw [Bool.eq_false_iff]
    intro h
    exact absurd ((hwithin ["movies"] ["movies2"] hnames (by decide)).mp h) (by decide)
  · refine (hunder report namesOf hpaths ["movies"] hnames).trans ?_
    decide +kernel

end Report

end Prefetch
