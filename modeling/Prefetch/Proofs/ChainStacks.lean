import Prefetch.Proofs.ChainReading

/-!
# A chain read with two stacks

A chain can be put together with two stacks: one holds the siblings collected on every level that is
open, the other the names whose children these levels hold. A plain token opens a level, and the
trees of an array join the level that is open when it is met. At the end the levels are closed from
the inside out. Taking a level from an empty stack would be a fault of its own.

There is always one level more than there are names, so that fault never occurs. The stacks give
what the recursive reading of the tokens gives, and this is also how the text of a chain is read.
-/

namespace Prefetch

/-- The trees that the members of a text between brackets give, one member after the other. -/
def readMembers (content : String) : Except Rejection (List Node) :=
  match splitMembers content with
  | .error e => .error (.unbalanced e.text)
  | .ok parts => .map List.flatten (parts.mapM readChain)

/-- The forest of a chain of tokens. What is behind a plain token is below it, and what is behind an
array is beside its members. -/
def readTokens : List Token → Except Rejection (List Node)
  | [] => .ok []
  | ⟨.array, text⟩ :: rest => do
    let members ← readMembers (Token.interior text)
    return members ++ (← readTokens rest)
  | ⟨.plain, text⟩ :: rest =>
    if text = "" then .error .blankName
    else do return [⟨text, ← readTokens rest⟩]

/-- The siblings on every open level and the names above these levels, innermost first. -/
structure ChainStacks where
  levels : List (List Node)
  names : List String

inductive StackFault where
  | rejected (cause : Rejection)
  | emptyStack

def orRejected {α : Type} : Except Rejection α → Except StackFault α
  | .ok a => .ok a
  | .error cause => .error (.rejected cause)

namespace ChainStacks

def start : ChainStacks := ⟨[[]], []⟩

def extend (s : ChainStacks) (members : List Node) : Except StackFault ChainStacks :=
  match s.levels with
  | [] => .error .emptyStack
  | level :: outer => .ok ⟨(level ++ members) :: outer, s.names⟩

def takePart (s : ChainStacks) (part : String) : Except StackFault ChainStacks := do
  let members ← orRejected (readChain part)
  s.extend members

def take (s : ChainStacks) (token : Token) : Except StackFault ChainStacks :=
  match token.kind with
  | .array =>
    match splitMembers (Token.interior token.text) with
    | .error e => .error (.rejected (.unbalanced e.text))
    | .ok parts => parts.foldlM takePart s
  | .plain =>
    if token.text = "" then .error (.rejected .blankName)
    else .ok ⟨[] :: s.levels, token.text :: s.names⟩

/-- Puts the siblings collected last below the innermost name, on the level around it, until no
name is left. -/
def fold (siblings : List Node) : List (List Node) → List String → Except StackFault (List Node)
  | _, [] => .ok siblings
  | [], _ :: _ => .error .emptyStack
  | level :: levels, name :: names => fold (level ++ [⟨name, siblings⟩]) levels names

def close (s : ChainStacks) : Except StackFault (List Node) :=
  match s.levels with
  | [] => .error .emptyStack
  | siblings :: levels => fold siblings levels s.names

/-- The forest that the two stacks give for a chain of tokens. -/
def build (tokens : List Token) : Except StackFault (List Node) := do
  let s ← tokens.foldlM take start
  s.close

/-- The stacks that belong to open levels and the siblings collected last. -/
def ofLevels (levels : List OpenLevel) (siblings : List Node) : ChainStacks :=
  ⟨siblings :: levels.map (·.before), levels.map (·.name)⟩

theorem extend_ofLevels (levels : List OpenLevel) (siblings members : List Node) :
    (ofLevels levels siblings).extend members = .ok (ofLevels levels (siblings ++ members)) := rfl

theorem close_ofLevels (levels : List OpenLevel) (siblings : List Node) :
    (ofLevels levels siblings).close = .ok (closeLevels levels siblings) := by
  have hfold : fold siblings (levels.map (·.before)) (levels.map (·.name)) =
      .ok (closeLevels levels siblings) := by
    induction levels generalizing siblings with
    | nil => rfl
    | cons level levels ih => exact ih _
  exact hfold

theorem foldlM_takePart_ofLevels (levels : List OpenLevel) (siblings : List Node)
    (parts : List String) :
    parts.foldlM takePart (ofLevels levels siblings) =
      orRejected ((parts.mapM readChain).map fun forests =>
        ofLevels levels (siblings ++ forests.flatten)) := by
  induction parts generalizing siblings with
  | nil => simp [orRejected, Except.map, pure, Except.pure]
  | cons part parts ih =>
    rw [List.foldlM_cons, List.mapM_cons, takePart]
    cases readChain part with
    | error cause => rfl
    | ok members =>
      have hrest := ih (siblings ++ members)
      simp only [orRejected, bind, Except.bind, extend_ofLevels, hrest]
      cases parts.mapM readChain with
      | error cause => rfl
      | ok forests => simp [Except.map, pure, Except.pure]

theorem take_array (levels : List OpenLevel) (siblings : List Node) (text : String) :
    (ofLevels levels siblings).take ⟨.array, text⟩ =
      orRejected ((readMembers (Token.interior text)).map fun members =>
        ofLevels levels (siblings ++ members)) := by
  simp only [take, readMembers]
  cases splitMembers (Token.interior text) with
  | error e => rfl
  | ok parts =>
    simp only [foldlM_takePart_ofLevels]
    cases parts.mapM readChain with
    | error cause => rfl
    | ok forests => rfl

theorem take_plain (levels : List OpenLevel) (siblings : List Node) {text : String}
    (hne : text ≠ "") :
    (ofLevels levels siblings).take ⟨.plain, text⟩ =
      .ok (ofLevels (⟨text, siblings⟩ :: levels) []) := by
  simp only [take, if_neg hne]
  rfl

/-- Whatever levels are open, the rest of a chain joins the siblings collected last before the
levels are closed. -/
theorem foldlM_take_ofLevels (levels : List OpenLevel) (siblings : List Node)
    (tokens : List Token) :
    (tokens.foldlM take (ofLevels levels siblings) >>= close) =
      orRejected ((readTokens tokens).map fun forest =>
        closeLevels levels (siblings ++ forest)) := by
  induction tokens generalizing levels siblings with
  | nil =>
    rw [readTokens, List.foldlM_nil, pure_bind, close_ofLevels]
    simp [orRejected, Except.map]
  | cons token rest ih =>
    obtain ⟨kind, text⟩ := token
    rw [List.foldlM_cons, bind_assoc]
    cases kind with
    | array =>
      rw [readTokens, take_array]
      cases readMembers (Token.interior text) with
      | error cause => rfl
      | ok members =>
        refine Eq.trans (ih levels (siblings ++ members)) ?_
        cases readTokens rest with
        | error cause => rfl
        | ok forest => simp [Except.map, bind, Except.bind, pure, Except.pure]
    | plain =>
      rw [readTokens]
      by_cases hempty : text = ""
      · rw [if_pos hempty, hempty]
        rfl
      · rw [if_neg hempty, take_plain levels siblings hempty]
        refine Eq.trans (ih (⟨text, siblings⟩ :: levels) []) ?_
        cases readTokens rest with
        | error cause => rfl
        | ok forest => rfl

theorem build_eq (tokens : List Token) : build tokens = orRejected (readTokens tokens) := by
  refine Eq.trans (foldlM_take_ofLevels [] [] tokens) ?_
  cases readTokens tokens with
  | error cause => rfl
  | ok forest => rfl

end ChainStacks

theorem exists_readTokens_error_iff {tokens : List Token} :
    (∃ cause, readTokens tokens = .error cause) ↔
      ∃ token ∈ tokens, (token.kind = .plain ∧ token.text = "") ∨
        (token.kind = .array ∧
          ∃ cause, readMembers (Token.interior token.text) = .error cause) := by
  induction tokens with
  | nil => simp [readTokens]
  | cons token rest ih =>
    obtain ⟨kind, text⟩ := token
    rw [List.exists_mem_cons_iff, ← ih]
    cases kind with
    | array =>
      rw [readTokens]
      cases readMembers (Token.interior text) with
      | error cause => simp [bind, Except.bind]
      | ok members =>
        cases readTokens rest with
        | error cause => simp [bind, Except.bind]
        | ok forest => simp [bind, Except.bind, pure, Except.pure]
    | plain =>
      rw [readTokens]
      by_cases hempty : text = ""
      · simp [hempty]
      · cases readTokens rest with
        | error cause => simp [hempty, bind, Except.bind]
        | ok forest => simp [hempty, bind, Except.bind, pure, Except.pure]

theorem readLink_array {text : String} (hkind : (Token.classify text).kind = .array) :
    readLink text = .map .group (readMembers (Token.interior text)) := by
  rw [readLink_eq, hkind, readMembers]
  simp only
  cases splitMembers (Token.interior text) with
  | error e => rfl
  | ok parts =>
    simp only
    cases parts.mapM readChain with
    | error cause => rfl
    | ok forests => rfl

theorem map_assemble_mapM_readLink (pieces : List String) :
    (pieces.mapM readLink).map assemble = readTokens (pieces.map Token.classify) := by
  induction pieces with
  | nil => rfl
  | cons piece pieces ih =>
    rw [List.mapM_cons, List.map_cons]
    cases hkind : (Token.classify piece).kind with
    | plain =>
      have htoken : Token.classify piece = ⟨.plain, piece⟩ := by rw [← hkind]; rfl
      rw [htoken, readTokens, ← ih]
      by_cases hempty : piece = ""
      · rw [if_pos hempty, hempty, readLink_eq]
        rfl
      · rw [if_neg hempty, readLink_of_plain hkind hempty]
        cases pieces.mapM readLink with
        | error cause => rfl
        | ok links => simp [Except.map, bind, Except.bind, pure, Except.pure]
    | array =>
      have htoken : Token.classify piece = ⟨.array, piece⟩ := by rw [← hkind]; rfl
      rw [htoken, readTokens, ← ih, readLink_array hkind]
      cases readMembers (Token.interior piece) with
      | error cause => rfl
      | ok members =>
        cases pieces.mapM readLink with
        | error cause => rfl
        | ok links => simp [Except.map, bind, Except.bind, pure, Except.pure]

/-- A text is read by reading the tokens of its pieces. -/
theorem readChain_eq_readTokens (text : String) :
    readChain text =
      (match splitChain text with
        | .error e => .error (.unbalanced e.text)
        | .ok pieces => readTokens (pieces.map Token.classify)) := by
  rw [readChain_eq]
  cases splitChain text with
  | error e => rfl
  | ok pieces => exact map_assemble_mapM_readLink pieces

/-- The two stacks give for every chain of tokens what the recursive reading gives, and no empty
stack is met. They fail if and only if a plain token is empty or the members of an array cannot be
read. The text of a chain is read by putting together the tokens that it is split into. -/
theorem build_eq_readTokens (tokens : List Token) :
    ChainStacks.build tokens = orRejected (readTokens tokens) ∧
    ChainStacks.build tokens ≠ .error .emptyStack ∧
    ((∃ fault, ChainStacks.build tokens = .error fault) ↔
      ∃ token ∈ tokens, (token.kind = .plain ∧ token.text = "") ∨
        (token.kind = .array ∧
          ∃ cause, readMembers (Token.interior token.text) = .error cause)) ∧
    ∀ text pieces, splitChain text = .ok pieces →
      ChainStacks.build (pieces.map Token.classify) = orRejected (readChain text) := by
  rw [ChainStacks.build_eq, ← exists_readTokens_error_iff]
  refine ⟨rfl, ?_, ?_, ?_⟩
  · cases readTokens tokens with
    | error cause => simp [orRejected]
    | ok forest => simp [orRejected]
  · cases readTokens tokens with
    | error cause => simp [orRejected]
    | ok forest => simp [orRejected]
  · intro text pieces hpieces
    rw [ChainStacks.build_eq, readChain_eq_readTokens, hpieces]

/-- The trees of an array join the level on which the array stands, before and behind a name. -/
theorem build_eq_readTokens_mixed :
    splitChain "[x].a.[b, c].d" = .ok ["[x]", "a", "[b, c]", "d"] ∧
    ChainStacks.build [⟨.array, "[x]"⟩, ⟨.plain, "a"⟩, ⟨.array, "[b, c]"⟩, ⟨.plain, "d"⟩] =
      .ok [⟨"x", []⟩, ⟨"a", [⟨"b", []⟩, ⟨"c", []⟩, ⟨"d", []⟩]⟩] := by
  have hpieces : splitChain "[x].a.[b, c].d" = .ok ["[x]", "a", "[b, c]", "d"] := by
    decide +kernel
  have hread : readChain "[x].a.[b, c].d" =
      .ok [⟨"x", []⟩, ⟨"a", [⟨"b", []⟩, ⟨"c", []⟩, ⟨"d", []⟩]⟩] := by
    decide +kernel
  obtain ⟨-, -, -, htext⟩ := build_eq_readTokens []
  refine ⟨hpieces, ?_⟩
  have hbuild := htext _ _ hpieces
  rw [hread] at hbuild
  exact hbuild

end Prefetch
