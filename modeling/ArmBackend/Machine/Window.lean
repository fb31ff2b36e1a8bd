import ArmBackend.Machine.Program

/-!
# Window rules

Rules that improve a few neighbouring instructions.  A rule looks only inside a
stretch of straight-line code, and the rules are applied in turn until none of
them finds anything.  Before that, jumps to the label behind them are dropped.
-/

namespace ArmBackend.Machine

inductive Rule where
  /-- a move from a register to itself does nothing -/
  | selfMove
  /-- a load right after a store to the same slot reads what was stored -/
  | storeToLoad
  /-- a move back of what was just moved does nothing -/
  | moveBack
deriving DecidableEq

/-- Code after a rule was applied, and how often it applied. -/
structure Applied where
  code : List Instr
  hits : Nat

def Instr.isSelfMove : Instr → Bool
  | .mov dest source => dest == source
  | _ => false

/-- What a rule on two neighbours puts in their place. -/
abbrev PairRule := Instr → Instr → Option (List Instr)

/-- The stored register also has what the load wants. -/
def forwardStore : PairRule
  | .stur stored base offset, .ldur dest base' offset' =>
    if base = base' ∧ offset = offset' ∧ base = .fp then
      some (.stur stored base offset :: if stored = dest then [] else [.mov dest stored])
    else none
  | _, _ => none

def dropMoveBack : PairRule
  | .mov dest source, .mov dest' source' =>
    if dest' = source ∧ source' = dest then some [.mov dest source] else none
  | _, _ => none

/-- Drop moves from a register to itself; the instruction behind a dropped one is passed over. -/
def dropSelfMoves : List Instr → Applied
  | [] => ⟨[], 0⟩
  | instr :: rest =>
    if instr.isSelfMove then
      match rest with
      | [] => ⟨[], 1⟩
      | passed :: rest =>
        let others := dropSelfMoves rest
        ⟨passed :: others.code, others.hits + 1⟩
    else
      let others := dropSelfMoves rest
      ⟨instr :: others.code, others.hits⟩

/-- Apply a rule to pairs of neighbours from left to right, but not to what it has put there. -/
def applyPairs (rule : PairRule) : List Instr → Applied
  | [] => ⟨[], 0⟩
  | [instr] => ⟨[instr], 0⟩
  | first :: second :: rest =>
    match rule first second with
    | some replacement =>
      let others := applyPairs rule rest
      ⟨replacement ++ others.code, others.hits + 1⟩
    | none =>
      let others := applyPairs rule (second :: rest)
      ⟨first :: others.code, others.hits⟩

namespace Rule

def standard : List Rule :=
  [selfMove, storeToLoad, moveBack]

def name : Rule → String
  | selfMove => "remove-self-move"
  | storeToLoad => "forward-store-to-load"
  | moveBack => "drop-move-back"

def ofName? (text : String) : Option Rule :=
  standard.find? fun rule => rule.name == text

def apply : Rule → List Instr → Applied
  | selfMove => dropSelfMoves
  | storeToLoad => applyPairs forwardStore
  | moveBack => applyPairs dropMoveBack

end Rule

/-- Code after some rules, and for each rule how often it applied. -/
structure Tidied where
  code : List Instr
  hits : List Nat

def applyRules : List Rule → List Instr → Tidied
  | [], code => ⟨code, []⟩
  | rule :: rest, code =>
    let applied := rule.apply code
    let others := applyRules rest applied.code
    ⟨others.code, applied.hits :: others.hits⟩

def noHits (rules : List Rule) : List Nat :=
  rules.map fun _ => 0

def addHits (left right : List Nat) : List Nat :=
  List.zipWith (· + ·) left right

/-- Repeat the rules until none applies, at most `rounds` times. -/
def applyRounds (rules : List Rule) : (rounds : Nat) → List Instr → Tidied
  | 0, code => ⟨code, noHits rules⟩
  | rounds + 1, code =>
    let round := applyRules rules code
    if round.hits.all (· == 0) then round
    else
      let others := applyRounds rules rounds round.code
      ⟨others.code, addHits round.hits others.hits⟩

def tidyStretch (rules : List Rule) (code : List Instr) : Tidied :=
  applyRounds rules (2 * code.length + 1) code

/-- Code cut at its boundaries: a first stretch, and each boundary with the stretch behind it. -/
structure Stretches where
  first : List Instr
  others : List (Instr × List Instr)

namespace Stretches

def ofCode : List Instr → Stretches
  | [] => ⟨[], []⟩
  | instr :: rest =>
    let cut := ofCode rest
    if instr.isBoundary then ⟨[], (instr, cut.first) :: cut.others⟩
    else ⟨instr :: cut.first, cut.others⟩

def toCode (stretches : Stretches) : List Instr :=
  stretches.first ++ stretches.others.flatMap fun entry => entry.1 :: entry.2

end Stretches

def tidyOthers (rules : List Rule) : List (Instr × List Instr) → Tidied
  | [] => ⟨[], noHits rules⟩
  | (boundary, stretch) :: rest =>
    let tidied := tidyStretch rules stretch
    let others := tidyOthers rules rest
    ⟨boundary :: tidied.code ++ others.code, addHits tidied.hits others.hits⟩

def tidyCode (rules : List Rule) (code : List Instr) : Tidied :=
  let stretches := Stretches.ofCode code
  let tidied := tidyStretch rules stretches.first
  let others := tidyOthers rules stretches.others
  ⟨tidied.code ++ others.code, addHits tidied.hits others.hits⟩

def dropJumpsToNext : List Instr → Applied
  | [] => ⟨[], 0⟩
  | instr :: rest =>
    let others := dropJumpsToNext rest
    match instr with
    | .b target =>
      if rest.head? = some (.label target) then ⟨others.code, others.hits + 1⟩
      else ⟨instr :: others.code, others.hits⟩
    | _ => ⟨instr :: others.code, others.hits⟩

def jumpToNextName : String := "remove-jump-to-next"

structure TidyStats where
  before : Nat
  after : Nat
  /-- each rule with the number of times it applied; dropped jumps come last -/
  hits : List (String × Nat)
deriving DecidableEq

namespace TidyStats

/-- How often the first rule of the name applied. -/
def hitsOf (stats : TidyStats) (name : String) : Nat :=
  (stats.hits.lookup name).getD 0

end TidyStats

/-- Functions after the rules, with the count of dropped jumps and of hits. -/
structure TidiedFunctions where
  functions : List Function
  jumps : Nat
  hits : List Nat

/-- Drop jumps from each function and tidy its code. -/
def tidyFunctions (rules : List Rule) : List Function → TidiedFunctions
  | [] => ⟨[], 0, noHits rules⟩
  | function :: rest =>
    let jumps := dropJumpsToNext function.body
    let tidied := tidyCode rules jumps.code
    let others := tidyFunctions rules rest
    ⟨{ function with body := tidied.code } :: others.functions, jumps.hits + others.jumps,
      addHits tidied.hits others.hits⟩

namespace Program

def tidyWith (rules : List Rule) (program : Program) : Program × TidyStats :=
  let tidied := tidyFunctions rules program.functions
  let result := { program with functions := tidied.functions }
  (result,
    { before := program.instrCount
      after := result.instrCount
      hits := (rules.map Rule.name).zip tidied.hits ++ [(jumpToNextName, tidied.jumps)] })

def tidy (program : Program) : Program × TidyStats :=
  program.tidyWith Rule.standard

end Program

end ArmBackend.Machine
