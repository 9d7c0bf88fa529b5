import TermText.Proofs.Dump.Calls
import TermText.Proofs.Dump.Identity

/-!
# What a dump denotes

The contents of a dump are its tables, the reference to the name of the module and the declaration
records in order. They denote a module if all that is asked for on the way denotes something. A dump
is loaded exactly if its contents denote a module, and then it is this module up to the identities of
nodes. So what is loaded can be reasoned about without a session; which nodes are shared cannot be read
off here.
-/

namespace TermText.Dump

/-- What a dump holds: its tables, the reference to the name of the module, and the declaration records
in order. -/
structure Contents where
  tables : Tables
  module : Json
  declarations : List Json

namespace Recipe

/-- A module is viewed as the module whose terms are written out as trees. -/
def IsModuleTree (m tree : Module) : Prop :=
  m.tree = tree

/-- The recipe of a module: its name, and its declarations in order. -/
def ofModule (c : Contents) : Recipe Module :=
  .askName c.module fun n => do
    let declarations ← each (fun record => ofDeclaration (record.depth + 1) record) c.declarations
    return ⟨n, declarations⟩

end Recipe

namespace Contents

variable {c : Contents} {dump : Json} {m : Module}

/-- A dump with given contents. -/
def HeldBy (c : Contents) (dump : Json) : Prop :=
  ∃ fields : Json.Fields, dump = .object fields ∧ tablesOf fields = .ok c.tables ∧
    (fields.get? "module").getD .null = c.module ∧ recordsOf fields = .ok c.declarations

/-- The records that a module refers to by its name and its declarations, in the order in which they are
asked for. -/
def roots (c : Contents) : List Key :=
  nameKeys c.module ++ c.declarations.flatMap declarationReferences

/-- The module that contents denote, its terms being trees. -/
def Denotes (c : Contents) (m : Module) : Prop :=
  (Recipe.ofModule c).Yields c.tables.meaning (Recipe.IsModuleTree · m)

/-- A dump has one contents at most. -/
theorem HeldBy.unique {c' : Contents} (h : c.HeldBy dump) (h' : c'.HeldBy dump) : c = c' := by
  obtain ⟨fields, rfl, htables, hmodule, hrecords⟩ := h
  obtain ⟨_, hfields, htables', hmodule', hrecords'⟩ := h'
  cases hfields
  obtain ⟨tables, module, declarations⟩ := c
  obtain ⟨tables', module', declarations'⟩ := c'
  obtain rfl : tables = tables' := Except.ok.inj (htables.symm.trans htables')
  obtain rfl : module = module' := hmodule.symm.trans hmodule'
  obtain rfl : declarations = declarations' := Except.ok.inj (hrecords.symm.trans hrecords')
  rfl

/-- The recipe of a module asks for the roots. -/
theorem sameCourse_ofModule (c : Contents) :
    (Recipe.ofModule c).SameCourse Recipe.IsModuleTree c.roots (Recipe.ofModule c) := by
  refine ⟨rfl, _, rfl, fun n => ?_⟩
  refine (Recipe.sameCourse_each fun record _ =>
    Recipe.sameCourse_ofDeclaration record.depth.lt_succ_self).map fun ds ds' trees hds hds' =>
      ⟨⟨n, trees⟩, ?_, ?_⟩
  · exact congrArg (Module.mk n) hds
  · exact congrArg (Module.mk n) hds'

/-- The module of a dump is built by running the recipe of its contents. -/
theorem HeldBy.moduleOf_eq_run {fields : Json.Fields} (h : c.HeldBy (.object fields)) :
    moduleOf c.tables fields = (Recipe.ofModule c).run c.tables.loader := by
  obtain ⟨_, hfields, _, hmodule, hrecords⟩ := h
  cases hfields
  have hdeclare : declaration c.tables = fun record =>
      (Recipe.ofDeclaration (record.depth + 1) record).run c.tables.loader :=
    funext (declaration_eq_run c.tables)
  rw [moduleOf, hmodule, hrecords, Recipe.ofModule, Recipe.run, hdeclare]
  simp only [Recipe.run_bind, Recipe.run_each]
  rfl

/-- Whether a module is built, and which, is decided by what the contents denote. -/
theorem HeldBy.decides_moduleOf {fields : Json.Fields} (h : c.HeldBy (.object fields)) :
    (moduleOf c.tables fields).Decides c.tables [] Recipe.IsModuleTree c.Denotes := by
  obtain ⟨o, hends, hyields⟩ := Recipe.exists_ends_run (fun m t t' ht ht' => ht.symm.trans ht')
    c.sameCourse_ofModule (c.tables.decides_all c.roots)
  rw [h.moduleOf_eq_run]
  exact ⟨o, hends _ c.sameCourse_ofModule, hyields⟩

/-- A dump is loaded as the module that its contents denote, if they denote one. -/
theorem HeldBy.exists_load_iff (h : c.HeldBy dump) :
    (∃ m', load dump = .ok m' ∧ m'.tree = m) ↔ c.Denotes m := by
  obtain ⟨fields, rfl, htables, -⟩ := id h
  obtain ⟨o, hends, hdenotes⟩ := h.decides_moduleOf
  obtain ⟨houtcome, -⟩ := hends.outcome_eq (Session.fits_empty c.tables)
  rw [← hdenotes, load_eq_outcome htables, ← houtcome]
  cases (moduleOf c.tables fields).outcome Session.empty <;> simp [Except.map]

/-- What a dump is loaded from: its contents, and a session that is sound and in which nothing is being
built. -/
theorem exists_heldBy_of_load (h : load dump = .ok m) :
    ∃ (c : Contents) (s : Session), c.HeldBy dump ∧ moduleOf c.tables dump.fields Session.empty = .ok m s ∧
      s.Fits c.tables [] := by
  obtain ⟨records, tables, s, hrecords, htables, hrun⟩ := exists_of_load h
  cases dump with
  | object fields =>
    let c : Contents := ⟨tables, (Json.Fields.get? fields "module").getD .null, records⟩
    have hheld : c.HeldBy (.object fields) := ⟨fields, rfl, htables, rfl, hrecords⟩
    exact ⟨c, s, hheld, hrun, (hheld.decides_moduleOf.of_ok (Session.fits_empty tables) hrun).1⟩
  | _ => cases h

end Contents

end TermText.Dump
