import ArmBackend.Proofs.Lowering.Numbering
import ArmBackend.Proofs.Machine.Selection
import ArmBackend.Proofs.Session.Validation

/-!
# Constants of string literals

The table of strings numbers literals in the order of their first use.  Each literal of a tree
is loaded by one instruction, whose label is that of one string of the assembly: the literal.
-/

namespace ArmBackend

open List

namespace Ir.StringTable

variable (table : StringTable) (literal : String) (literals : List String)

theorem intern_of_mem {table : StringTable} {literal : String} (member : literal ∈ table.entries) :
    table.intern literal = (table, table.entries.idxOf literal) := by
  have known : table.entries.findIdx? (· == literal) = some (table.entries.idxOf literal) :=
    findIdx?_eq_some_of_exists ⟨literal, member, beq_self_eq_true literal⟩
  unfold intern
  split
  · next id found =>
      rw [table.agrees, known] at found
      rw [Option.some.inj found]
  · next found =>
      rw [table.agrees, known] at found
      cases found

theorem intern_of_notMem {table : StringTable} {literal : String}
    (outside : literal ∉ table.entries) :
    (table.intern literal).1.entries = table.entries ++ [literal] ∧
      (table.intern literal).2 = table.entries.length := by
  have unknown : table.entries.findIdx? (· == literal) = none :=
    findIdx?_eq_none_iff.mpr fun entry inside =>
      beq_false_of_ne (ne_of_mem_of_not_mem inside outside)
  unfold intern
  split
  · next id found =>
      rw [table.agrees, unknown] at found
      cases found
  · exact ⟨rfl, rfl⟩

/-- New literals are put behind the old ones, in the order in which they first come. -/
theorem entries_internAll :
    (table.internAll literals).1.entries =
      table.entries ++ (literals.removeAll table.entries).eraseDups := by
  induction literals generalizing table with
  | nil => exact (append_nil _).symm
  | cons literal rest ih =>
    by_cases member : literal ∈ table.entries
    · rw [internAll, intern_of_mem member, ih table]
      simp [removeAll, member]
    · have later : rest.removeAll (table.entries ++ [literal]) =
          (rest.removeAll table.entries).filter fun entry => !entry == literal := by
        rw [removeAll, removeAll, filter_filter]
        refine filter_congr fun entry _ => ?_
        by_cases same : entry = literal <;> simp [same]
      rw [internAll, ih, (intern_of_notMem member).1, later]
      simp [removeAll, member, eraseDups_cons]

theorem nodup_internAll (distinct : table.entries.Nodup) :
    (table.internAll literals).1.entries.Nodup := by
  induction literals generalizing table with
  | nil => exact distinct
  | cons literal rest ih =>
    refine ih _ ?_
    by_cases member : literal ∈ table.entries
    · rw [intern_of_mem member]
      exact distinct
    · rw [(intern_of_notMem member).1]
      exact concat_eq_append ▸ distinct.concat member

/-- A literal gets the number of its entry. -/
theorem ids_internAll :
    (table.internAll literals).2 =
      literals.map fun literal => (table.internAll literals).1.entries.idxOf literal := by
  induction literals generalizing table with
  | nil => rfl
  | cons literal rest ih =>
    obtain ⟨more, same⟩ := (table.intern literal).1.prefix_internAll rest
    refine congrArg₂ cons ?_ (ih _)
    dsimp only [internAll]
    rw [← same]
    by_cases member : literal ∈ table.entries
    · rw [intern_of_mem member, idxOf_append_of_mem member]
    · rw [(intern_of_notMem member).1, (intern_of_notMem member).2, append_assoc,
        idxOf_append_of_notMem member]
      simp

theorem toList_eq : table.toList = (range table.size).zip table.entries := by
  rw [range_eq_range', ← zip_swap, size, ← zipIdx_eq_zip_range']
  rfl

/-- The ids of literals that were interned one after the other. -/
structure Indexes (result : StringTable × List Nat) : Prop where
  /-- each literal has one entry, in the order of first use -/
  entries : result.1.entries = literals.eraseDups
  distinct : result.1.entries.Nodup
  /-- the index finds what a search of the entries would -/
  index : ∀ literal, result.1.index.lookup literal =
    if literal ∈ literals then some (result.1.entries.idxOf literal) else none
  ids : result.2 = literals.map fun literal => result.1.entries.idxOf literal
  found : ∀ literal ∈ literals, result.1.get? (result.1.entries.idxOf literal) = some literal
  alike : ∀ first ∈ literals, ∀ second,
    result.1.entries.idxOf first = result.1.entries.idxOf second ↔ first = second
  listed : result.1.toList = (range result.1.size).zip result.1.entries

theorem indexes_internAll : Indexes literals (empty.internAll literals) := by
  have entries : (empty.internAll literals).1.entries = literals.eraseDups := by
    rw [entries_internAll]
    simp [empty, removeAll]
  have inside {literal : String} (member : literal ∈ literals) :
      literal ∈ (empty.internAll literals).1.entries :=
    entries ▸ mem_eraseDups.mpr member
  refine ⟨entries, empty.nodup_internAll literals .nil, ?_, empty.ids_internAll literals, ?_, ?_,
    toList_eq _⟩
  · intro literal
    rw [StringTable.agrees]
    split
    · next member => exact findIdx?_eq_some_of_exists ⟨literal, inside member, beq_self_eq_true literal⟩
    · next outside =>
        refine findIdx?_eq_none_iff.mpr fun entry listed => beq_false_of_ne ?_
        rintro rfl
        exact outside (mem_eraseDups.mp (entries ▸ listed))
  · exact fun literal member => getElem?_idxOf (inside member)
  · exact fun first member second => idxOf_inj (inside member)

end Ir.StringTable

namespace Machine

/-- A load of an address begins with the address of the symbol of its label. -/
theorem select_loadAddr {site : Site} {pending : Pending} {dest : Ir.Operand} {name : String}
    {type : DataType} {line : Nat} {code : List Instr}
    (selected : (site.select pending
      ((Ir.Instr.loadAddr dest (.label name type)).atLine line)).run = .ok code) :
    ∃ register rest, code = symbolAddress register (Symbol.ofLabel name) ++ rest := by
  obtain ⟨_, done, rfl⟩ := Emit.run_ok selected
  obtain ⟨_, _, one, more, rfl⟩ := Emit.bind_ok done
  obtain ⟨_, _, two, assigned, rfl⟩ := Emit.bind_ok more
  cases one
  cases two
  cases home : site.register? dest with
  | some register =>
    simp only [Site.assign, home] at assigned
    cases assigned
    exact ⟨register, [], (append_nil _).symm⟩
  | none =>
    simp only [Site.assign, home] at assigned
    obtain ⟨_, after, loaded, _, rfl⟩ := Emit.bind_ok assigned
    cases loaded
    exact ⟨_, after.code, rfl⟩

/-- The symbol of an entry of the string table. -/
def stringSymbol (id : Nat) : String :=
  Symbol.ofLabel (Ir.Operand.stringLabel id)

theorem stringSymbol_injective {left right : Nat}
    (same : stringSymbol left = stringSymbol right) : left = right := by
  rw [stringSymbol, stringSymbol, Symbol.ofLabel_stringLabel, Symbol.ofLabel_stringLabel] at same
  exact Ir.append_toString_injective ".Lstr" same

/-- No two strings of the assembly have one label. -/
theorem nodup_stringsOf (program : Ir.Program) :
    ((Program.stringsOf program).map StringObject.label).Nodup := by
  have labels : (Program.stringsOf program).map StringObject.label =
      (range program.strings.size).map stringSymbol := by
    have ids : program.strings.toList.map Prod.fst = range program.strings.size := by
      rw [Ir.StringTable.toList_eq]
      exact map_fst_zip (Nat.le_of_eq length_range)
    rw [← ids, map_map]
    exact map_map
  rw [labels]
  exact Nodup.map (fun _ _ => stringSymbol_injective) nodup_range

theorem getElem?_stringsOf {program : Ir.Program} {id : Nat} {literal : String}
    (found : program.strings.get? id = some literal) :
    (Program.stringsOf program)[id]? = some ⟨stringSymbol id, literal⟩ := by
  obtain ⟨inside, _⟩ := List.getElem?_eq_some_iff.mp found
  have entry : program.strings.toList[id]? = some (id, literal) := by
    rw [Ir.StringTable.toList_eq]
    exact getElem?_zip_eq_some.mpr ⟨getElem?_range inside, found⟩
  rw [Program.stringsOf, getElem?_map, entry]
  rfl

/--
The instruction loads the address of the literal into a temporary.  The code that is selected
for it has the label of one string of the assembly, which is the literal.
-/
def Reaches (program : Ir.Program) (literal : String) (instr : Ir.Instr) : Prop :=
  ∃ id name type line, program.strings.get? id = some literal ∧
    instr = (Ir.Instr.loadAddr (.temp name type) (.stringRef id)).atLine line ∧
    (∀ (site : Site) pending code, (site.select pending instr).run = .ok code →
      ∃ register rest, code = symbolAddress register (stringSymbol id) ++ rest) ∧
    ∀ (other : Ir.Program) assembly, other.strings = program.strings →
      (Program.ofIr other).result = .ok assembly →
        (assembly.strings.map StringObject.label).Nodup ∧
          assembly.strings[id]? = some ⟨stringSymbol id, literal⟩

theorem reaches_of_loads {program : Ir.Program} {literal : String} {instr : Ir.Instr}
    (loads : program.strings.Loads literal instr) : Reaches program literal instr := by
  obtain ⟨id, name, type, line, found, rfl⟩ := loads
  refine ⟨id, name, type, line, found, rfl, fun _ _ _ => select_loadAddr, ?_⟩
  intro other assembly same assembled
  have strings : assembly.strings = Program.stringsOf program := by
    rw [Program.stringsOf, ← same]
    unfold Program.ofIr at assembled
    cases functions : (Function.ofIrs other.globals other.functions).result <;>
      simp only [functions] at assembled <;> cases assembled
    rfl
  rw [strings]
  exact ⟨nodup_stringsOf program, getElem?_stringsOf found⟩

/--
Interned literals are numbered from zero in the order of their first use.  So every string
literal of a tree is the value of one load of an address, into a temporary that nothing else
writes, and the label there is that of one string of the assembly: the literal.
-/
theorem string_literals_reach_constants {scopes : ScopeTrace} {suppress : Bool} {tree : Tree}
    {program : Ir.Program} {context : Ir.Context}
    (lowered : Ir.Program.ofTree scopes suppress tree = .ok (program, context)) :
    (∀ literals, Ir.StringTable.Indexes literals (Ir.StringTable.empty.internAll literals)) ∧
      program.strings = (Ir.StringTable.empty.internAll
        ((Ir.Origin.all tree).flatMap Ir.Origin.literals)).1 ∧
      (∀ place bindings before position literal, ∃ id,
        let lowered := Ir.lowerExpr place bindings before (.str position literal)
        lowered.context.strings.get? id = some literal ∧ lowered.code =
          [(Ir.Instr.loadAddr lowered.operand (.stringRef id)).atLine position.line]) ∧
      (Ir.tempsOf (program.functions.flatMap Ir.Function.code)).Nodup ∧
      Forall₂ (fun origin function =>
        Forall₂ (Reaches program) origin.literals (function.code.filter Ir.Instr.refers))
        (Ir.Origin.all tree) program.functions := by
  obtain ⟨chain, _, strings⟩ := Ir.ofTree_chain lowered False.elim
  refine ⟨Ir.StringTable.indexes_internAll, strings.trans chain.issues.strings, ?_,
    chain.issues.nodup, ?_⟩
  · intro place bindings before position literal
    exact ⟨_, before.strings.get?_intern literal, rfl⟩
  · refine chain.loads.imp fun origin function loads => ?_
    rw [← strings] at loads
    exact loads.imp fun _ _ => reaches_of_loads

/-- A greeting that is printed by a function and again at top level. -/
def greeting : Tree where
  statements :=
    [.functionDecl ⟨1, 1⟩ "greet" [] .void [.println ⟨2, 3⟩ (.str ⟨2, 11⟩ "hello")],
      .println ⟨4, 1⟩ (.str ⟨4, 9⟩ "well"), .println ⟨5, 1⟩ (.str ⟨5, 9⟩ "hello"),
      .expr ⟨6, 1⟩ (.call ⟨6, 1⟩ "greet" [])]

theorem greeting_reaches_constants :
    ∃ program context, Ir.Program.ofTree .empty false greeting = .ok (program, context) ∧
      program.strings.entries = ["well", "hello"] ∧
      Forall₂ (fun origin function =>
        Forall₂ (Reaches program) origin.literals (function.code.filter Ir.Instr.refers))
        (Ir.Origin.all greeting) program.functions := by
  have table : (Ir.Program.ofTree .empty false greeting).toOption.map (·.1.strings.entries) =
      some ["well", "hello"] := by decide +kernel
  cases lowered : Ir.Program.ofTree .empty false greeting with
  | error error =>
    rw [lowered] at table
    cases table
  | ok result =>
    rw [lowered] at table
    exact ⟨result.1, result.2, rfl, Option.some.inj table,
      (string_literals_reach_constants lowered).2.2.2.2⟩

end Machine

end ArmBackend
