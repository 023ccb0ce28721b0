import Mathlib.Data.List.Forall2
import DirectiveTemplates.CommandLine.Run
import DirectiveTemplates.Proofs.OrderedMap

/-!
What a run of the command comes to. A run loads its files, compiles and writes in this order, and
each step can end it; what it writes is decided by what its files hold, before anything is written.
-/
namespace DirectiveTemplates

open Files

/-! ### Tables one after another -/

namespace ClassTable

theorem describe_merge (t other : ClassTable) (name : String) :
    (t.merge other).describe name = (other.describe name).or (t.describe name) := by
  have written := t.classes.writtenBy_entries.insertAll other.classes.entries
  have merged : (t.merge other).describe name =
      (t.classes.entries ++ other.classes.entries).reverse.lookup name := written.get? name
  rw [merged, List.reverse_append, List.lookup_append,
    ← t.classes.writtenBy_entries.get?, ← other.classes.writtenBy_entries.get?]
  rfl

/-- Of tables that are merged, the last one that knows a class describes it. -/
theorem describe_foldl_merge (t : ClassTable) (tables : List ClassTable) (name : String) :
    (tables.foldl merge t).describe name =
      (tables.reverse ++ [t]).findSome? (·.describe name) := by
  induction tables generalizing t with
  | nil => exact (List.findSome?_singleton).symm
  | cons other tables ih =>
    have last : [other, t].findSome? (·.describe name) = (t.merge other).describe name := by
      rw [describe_merge, List.findSome?_cons, List.findSome?_singleton]
      cases other.describe name <;> rfl
    rw [List.foldl_cons, ih, List.reverse_cons, List.append_assoc, List.findSome?_append,
      List.findSome?_append, List.singleton_append, last, List.findSome?_singleton]

end ClassTable

namespace CommandLine

theorem bind_eq_ok {ε α β : Type} {x : Except ε α} {f : α → Except ε β} {b : β} :
    x >>= f = .ok b ↔ ∃ a, x = .ok a ∧ f a = .ok b := by
  cases x with
  | error e => exact ⟨fun h => (nomatch h), fun ⟨_, h, _⟩ => (nomatch h)⟩
  | ok a => exact ⟨fun h => ⟨a, rfl, h⟩, fun ⟨_, h, h'⟩ => Except.ok.inj h ▸ h'⟩

theorem ok_eq_ok {ε α : Type} {x y : α} : (Except.ok x : Except ε α) = .ok y ↔ y = x :=
  ⟨fun h => (Except.ok.inj h).symm, fun h => congrArg Except.ok h.symm⟩

variable {files : FileReader} {a : Arguments}

/-! ### What files hold -/

def Holds (files : FileReader) (read? : String → Option α) (path : String) (x : α) : Prop :=
  ∃ text, readText files path = .ok text ∧ read? text = some x

theorem loadText_eq_ok {role : FileRole} {path text : String} :
    loadText files role path = .ok text ↔ readText files path = .ok text := by
  rw [loadText]
  cases readText files path with
  | error e => exact ⟨fun h => (nomatch h), fun h => (nomatch h)⟩
  | ok read => exact ok_eq_ok.trans ok_eq_ok.symm

theorem load_eq_ok {role : FileRole} {read? : String → Option α} {path : String} {x : α} :
    load files role read? path = .ok x ↔ Holds files read? path x := by
  rw [load, bind_eq_ok]
  refine exists_congr fun text => and_congr loadText_eq_ok ?_
  cases read? text with
  | none => exact ⟨fun h => (nomatch h), fun h => (nomatch h)⟩
  | some y => exact ok_eq_ok.trans ⟨fun h => congrArg some h.symm, fun h => (Option.some.inj h).symm⟩

/-- The settings of a run: those that its project file holds, with paths from the directory of that
file, and none without one. -/
def HasProject (files : FileReader) (a : Arguments) (p : Project) : Prop :=
  match a.project with
  | none => p = {}
  | some path => ∃ read, Holds files Project.decoder.run path read ∧ p = read.within (parent path)

theorem loadProject_eq_ok {p : Project} : loadProject files a = .ok p ↔ HasProject files a p := by
  rw [loadProject, HasProject]
  cases a.project with
  | none => exact ok_eq_ok
  | some path =>
    rw [bind_eq_ok]
    exact exists_congr fun read => and_congr load_eq_ok ok_eq_ok

/-- The model of a run: what its data file holds, and null without one. -/
def HasModel (files : FileReader) (a : Arguments) (model : Json.Value) : Prop :=
  match a.data with
  | none => model = .null
  | some path => Holds files Json.Decoder.value.run path model

theorem loadModel_eq_ok {model : Json.Value} :
    loadModel files a = .ok model ↔ HasModel files a model := by
  rw [loadModel, HasModel]
  cases a.data with
  | none => exact ok_eq_ok
  | some path => exact load_eq_ok

theorem loadClasses_eq_ok {paths : List String} {classes : ClassTable} :
    loadClasses files paths = .ok classes ↔
      ∃ tables, List.Forall₂ (Holds files ClassTable.ofText?) paths tables ∧
        classes = tables.foldl .merge .standard := by
  rw [loadClasses]
  generalize ClassTable.standard = first
  induction paths generalizing first with
  | nil =>
    refine ⟨fun h => ⟨[], .nil, (Except.ok.inj h).symm⟩, ?_⟩
    rintro ⟨_, ⟨⟩, rfl⟩
    rfl
  | cons path paths ih =>
    have merged (classes' : ClassTable) :
        (load files .metadata ClassTable.ofText? path >>= fun table =>
          (Except.ok (first.merge table) : Except Failure ClassTable)) = .ok classes' ↔
        ∃ table, Holds files ClassTable.ofText? path table ∧ classes' = first.merge table := by
      rw [bind_eq_ok]
      exact exists_congr fun table => and_congr load_eq_ok ok_eq_ok
    rw [List.foldlM_cons, bind_eq_ok]
    constructor
    · rintro ⟨classes', step, later⟩
      obtain ⟨table, holds, rfl⟩ := (merged classes').mp step
      obtain ⟨tables, all, rfl⟩ := (ih _).mp later
      exact ⟨table :: tables, .cons holds all, rfl⟩
    · rintro ⟨_, all, rfl⟩
      cases all with
      | cons holds all =>
        exact ⟨_, (merged _).mpr ⟨_, holds, rfl⟩, (ih _).mpr ⟨_, all, rfl⟩⟩

/-! ### The steps of a run -/

/-- What a run compiles, as its arguments and files have it. The tables of the project come in front
of those of the arguments, and otherwise an argument counts and not the project. -/
structure Prepares (files : FileReader) (a : Arguments) (p : Project) (tables : List ClassTable)
    (j : Job) : Prop where
  project : HasProject files a p
  name : j.text.name = a.template
  template : readText files a.template = .ok j.text.content
  loaded : List.Forall₂ (Holds files ClassTable.ofText?) (p.tables ++ a.tables) tables
  classes : j.compiler.classes = tables.foldl .merge .standard
  config : j.compiler.config = p.config
  resources : j.compiler.resources = Resources.withStandard p.config.descriptorRoot
    (match a.resources.or p.resources with
      | none => fun _ => .absent
      | some root => resourcesBelow files root)
  expressions : j.compiler.expressions = Path.compile
  className : j.className = (a.className.or p.className).getD "Object"

theorem prepare_eq_ok {j : Job} :
    prepare files a = .ok j ↔ ∃ p tables, Prepares files a p tables j := by
  rw [prepare, bind_eq_ok]
  refine exists_congr fun p => ?_
  rw [loadProject_eq_ok, Plan.job, bind_eq_ok]
  constructor
  · rintro ⟨project, source, template, loaded⟩
    obtain ⟨classes, loaded, job⟩ := bind_eq_ok.mp loaded
    obtain ⟨tables, all, rfl⟩ := loadClasses_eq_ok.mp loaded
    cases job
    exact ⟨tables, project, rfl, loadText_eq_ok.mp template, all, rfl, rfl, rfl, rfl, rfl⟩
  · rintro ⟨tables, prepared⟩
    obtain ⟨⟨config, classes, resources, expressions⟩, ⟨source, name⟩, className⟩ := j
    obtain ⟨project, rfl, template, all, rfl, rfl, rfl, rfl, rfl⟩ := prepared
    refine ⟨project, source, loadText_eq_ok.mpr template, ?_⟩
    exact bind_eq_ok.mpr ⟨_, loadClasses_eq_ok.mpr ⟨tables, all, rfl⟩, rfl⟩

def Compiles (j : Job) (nodes : List TemplateNode) (diagnostics : List Diagnostic) : Prop :=
  j.outcome.result = .ok nodes ∧ j.outcome.progress.diagnostics = diagnostics

theorem compile_eq_ok {j : Job} {compiled : Compiled} :
    j.compile = .ok compiled ↔ Compiles j compiled.nodes compiled.diagnostics := by
  obtain ⟨nodes, diagnostics⟩ := compiled
  rw [Job.compile, Compiles]
  cases j.outcome.result with
  | error e => exact ⟨fun h => (nomatch h), fun h => (nomatch h.1)⟩
  | ok made =>
    constructor
    · rintro ⟨⟩
      exact ⟨rfl, rfl⟩
    · rintro ⟨⟨⟩, rfl⟩
      rfl

/-- The text for a tree without problems: its JSON form, or what one rendering against the model
shows. -/
def Emits (files : FileReader) (a : Arguments) (nodes : List TemplateNode) (text : String) : Prop :=
  match a.form with
  | .tree => text = (TemplateNode.forestToJson nodes).prettyText
  | .html => ∃ model, HasModel files a model ∧
      ∃ live, (Live.Instance.create interpreter nodes model).render = (.ok (), live) ∧
        text = live.html

theorem rendering_eq_ok {nodes : List TemplateNode} {model : Json.Value} {text : String} :
    rendering nodes model = .ok text ↔
      ∃ live, (Live.Instance.create interpreter nodes model).render = (.ok (), live) ∧
        text = live.html := by
  rw [rendering]
  rcases (Live.Instance.create interpreter nodes model).render with ⟨e | _, live⟩
  · exact ⟨fun h => (nomatch h), fun ⟨_, h, _⟩ => (nomatch h)⟩
  · constructor
    · rintro ⟨⟩
      exact ⟨live, rfl, rfl⟩
    · rintro ⟨_, ⟨⟩, rfl⟩
      rfl

theorem emit_eq_ok {nodes : List TemplateNode} {output : String} :
    emit files a nodes = .ok output ↔ ∃ text, Emits files a nodes text ∧ output = text ++ "\n" := by
  unfold emit Emits
  cases a.form with
  | tree =>
    constructor
    · rintro ⟨⟩
      exact ⟨_, rfl, rfl⟩
    · rintro ⟨_, rfl, rfl⟩
      rfl
  | html =>
    simp only [bind_eq_ok]
    constructor
    · rintro ⟨model, loaded, text, rendered, ⟨⟩⟩
      exact ⟨text, ⟨model, loadModel_eq_ok.mp loaded, rendering_eq_ok.mp rendered⟩, rfl⟩
    · rintro ⟨text, ⟨model, holds, rendered⟩, rfl⟩
      exact ⟨model, loadModel_eq_ok.mpr holds, text, rendering_eq_ok.mpr rendered, rfl⟩

/-- A run that can do its work either describes the problems of its template, one after another, or
writes what it was asked for. -/
theorem execute_eq_ok {exit : Exit} :
    execute files a = .ok exit ↔
      ∃ p tables j nodes diagnostics,
        Prepares files a p tables j ∧ Compiles j nodes diagnostics ∧
        (diagnostics ≠ [] ∧ exit = .described (diagnostics.map j.text.describe) ∨
          diagnostics = [] ∧ ∃ text, Emits files a nodes text ∧ exit = .written (text ++ "\n")) := by
  rw [execute, bind_eq_ok]
  constructor
  · rintro ⟨j, prepared, rest⟩
    obtain ⟨p, tables, prepared⟩ := prepare_eq_ok.mp prepared
    obtain ⟨⟨nodes, diagnostics⟩, compiled, rest⟩ := bind_eq_ok.mp rest
    refine ⟨p, tables, j, nodes, diagnostics, prepared, compile_eq_ok.mp compiled, ?_⟩
    cases diagnostics with
    | nil =>
      obtain ⟨output, emitted, written⟩ := bind_eq_ok.mp rest
      obtain ⟨text, emits, rfl⟩ := emit_eq_ok.mp emitted
      exact Or.inr ⟨rfl, text, emits, ok_eq_ok.mp written⟩
    | cons d ds => exact Or.inl ⟨List.cons_ne_nil _ _, ok_eq_ok.mp rest⟩
  · rintro ⟨p, tables, j, nodes, diagnostics, prepared, compiled, outcome⟩
    refine ⟨j, prepare_eq_ok.mpr ⟨p, tables, prepared⟩, ?_⟩
    refine bind_eq_ok.mpr ⟨⟨nodes, diagnostics⟩, compile_eq_ok.mpr compiled, ?_⟩
    rcases outcome with ⟨some, rfl⟩ | ⟨rfl, text, emits, rfl⟩
    · obtain ⟨d, ds, rfl⟩ := List.exists_cons_of_ne_nil some
      rfl
    · exact bind_eq_ok.mpr ⟨_, emit_eq_ok.mpr ⟨text, emits, rfl⟩, rfl⟩

variable {arguments : List String} {p : Project} {tables : List ClassTable} {j : Job}
  {nodes : List TemplateNode} {diagnostics : List Diagnostic} {text : String}

theorem run_of_problems (accepted : Arguments.parse arguments = .ok a)
    (prepared : Prepares files a p tables j) (compiled : Compiles j nodes diagnostics)
    (some : diagnostics ≠ []) :
    run files arguments = .described (diagnostics.map j.text.describe) := by
  have executed := execute_eq_ok.mpr
    ⟨p, tables, j, nodes, diagnostics, prepared, compiled, Or.inl ⟨some, rfl⟩⟩
  simp only [run, accepted, executed]

theorem run_of_emits (accepted : Arguments.parse arguments = .ok a)
    (prepared : Prepares files a p tables j) (compiled : Compiles j nodes [])
    (emits : Emits files a nodes text) : run files arguments = .written (text ++ "\n") := by
  have executed := execute_eq_ok.mpr
    ⟨p, tables, j, nodes, [], prepared, compiled, Or.inr ⟨rfl, text, emits, rfl⟩⟩
  simp only [run, accepted, executed]

/-- A run finds problems, can write what it is asked for, or stops. -/
theorem run_cases (accepted : Arguments.parse arguments = .ok a) :
    (∃ p tables j nodes diagnostics, Prepares files a p tables j ∧
      Compiles j nodes diagnostics ∧ diagnostics ≠ []) ∨
    (∃ p tables j nodes text, Prepares files a p tables j ∧ Compiles j nodes [] ∧
      Emits files a nodes text) ∨
    ∃ message, run files arguments = .stopped message := by
  cases executed : execute files a with
  | error failure =>
    refine Or.inr (Or.inr ⟨s!"Error: {failure.message}", ?_⟩)
    simp only [run, accepted, executed]
  | ok result =>
    obtain ⟨p, tables, j, nodes, diagnostics, prepared, compiled, some | none⟩ :=
      execute_eq_ok.mp executed
    · exact Or.inl ⟨p, tables, j, nodes, diagnostics, prepared, compiled, some.1⟩
    · obtain ⟨rfl, text, emits, -⟩ := none
      exact Or.inr (Or.inl ⟨p, tables, j, nodes, text, prepared, compiled, emits⟩)

/-- All or nothing. When arguments are accepted, a run has code 1 exactly when its files load and its
template compiles to messages, and then it writes nothing and describes each of them in order; it
has code 0 exactly when there are no messages and the text that is asked for can be made, and then
it writes that text; otherwise it has code 2 and writes nothing. In what it compiles, the last table
that knows a class describes it and the standard table comes first, and arguments replace the class
and the directory of the project. -/
theorem run_all_or_nothing (files : FileReader) (arguments : List String) (a : Arguments)
    (accepted : Arguments.parse arguments = .ok a) :
    let exit := run files arguments
    (exit.code = 1 ↔ ∃ p tables j nodes diagnostics,
      Prepares files a p tables j ∧ Compiles j nodes diagnostics ∧ diagnostics ≠ []) ∧
    (exit.code = 0 ↔ ∃ p tables j nodes text,
      Prepares files a p tables j ∧ Compiles j nodes [] ∧ Emits files a nodes text) ∧
    (exit.code ≠ 1 → exit.code ≠ 0 → exit.code = 2 ∧ exit.output = "") ∧
    ∀ p tables j, Prepares files a p tables j →
      (∀ nodes diagnostics, Compiles j nodes diagnostics → diagnostics ≠ [] →
        exit.output = "" ∧
        exit.errors = String.join (diagnostics.map fun d => j.text.describe d ++ "\n")) ∧
      (∀ nodes text, Compiles j nodes [] → Emits files a nodes text →
        exit.output = text ++ "\n") ∧
      (∀ name, j.compiler.classes.describe name =
        (tables.reverse ++ [ClassTable.standard]).findSome? (·.describe name)) ∧
      (∀ name, a.className = some name → j.className = name) ∧
      ∀ root, a.resources = some root →
        j.compiler.resources =
          Resources.withStandard p.config.descriptorRoot (resourcesBelow files root) := by
  intro exit
  have problems : (∃ p tables j nodes diagnostics, Prepares files a p tables j ∧
      Compiles j nodes diagnostics ∧ diagnostics ≠ []) → exit.code = 1 := by
    rintro ⟨p, tables, j, nodes, diagnostics, prepared, compiled, some⟩
    exact congrArg Exit.code (run_of_problems accepted prepared compiled some)
  have done : (∃ p tables j nodes text, Prepares files a p tables j ∧ Compiles j nodes [] ∧
      Emits files a nodes text) → exit.code = 0 := by
    rintro ⟨p, tables, j, nodes, text, prepared, compiled, emits⟩
    exact congrArg Exit.code (run_of_emits accepted prepared compiled emits)
  have cases := @run_cases files a arguments accepted
  refine ⟨⟨?_, problems⟩, ⟨?_, done⟩, ?_, ?_⟩
  · intro one
    rcases cases with some | none | ⟨message, stopped⟩
    · exact some
    · exact absurd (one.symm.trans (done none)) (by decide)
    · have two : exit.code = 2 := congrArg Exit.code stopped
      exact absurd (one.symm.trans two) (by decide)
  · intro zero
    rcases cases with some | none | ⟨message, stopped⟩
    · exact absurd (zero.symm.trans (problems some)) (by decide)
    · exact none
    · have two : exit.code = 2 := congrArg Exit.code stopped
      exact absurd (zero.symm.trans two) (by decide)
  · intro one zero
    rcases cases with some | none | ⟨message, stopped⟩
    · exact absurd (problems some) one
    · exact absurd (done none) zero
    · exact ⟨congrArg Exit.code stopped, congrArg Exit.output stopped⟩
  · intro p tables j prepared
    refine ⟨?_, ?_, ?_, ?_, ?_⟩
    · intro nodes diagnostics compiled some
      have described : exit = .described (diagnostics.map j.text.describe) :=
        run_of_problems accepted prepared compiled some
      rw [described, Exit.described, List.map_map]
      exact ⟨rfl, rfl⟩
    · intro nodes text compiled emits
      exact congrArg Exit.output (run_of_emits accepted prepared compiled emits)
    · intro name
      rw [prepared.classes, ClassTable.describe_foldl_merge]
    · intro name given
      rw [prepared.className, given]
      rfl
    · intro root given
      rw [prepared.resources, given]
      rfl

/-- A project with a class table, and a template that uses a directive nobody declares. -/
def faultyFiles : FileReader := fun path =>
  let file (text : String) := Except.ok (text.toList.map fun c => UInt8.ofNat c.toNat)
  match path with
  | "app/app.json" => file "\x7b\"className\":\"app.Page\",\"metadata\":[\"classes.json\"]\x7d"
  | "app/classes.json" => file "\x7b\"classes\":\x7b\"app.Page\":\x7b\x7d\x7d\x7d"
  | "page.html" => file "<p>\n <x:y/></p>"
  | _ => .error .notFound

def faultyArguments : List String := ["page.html", "--config", "app/app.json", "--emit=html"]

theorem run_all_or_nothing_faultyFiles :
    (run faultyFiles faultyArguments).output = "" ∧
      (run faultyFiles faultyArguments).errors =
        "page.html:2:3: error: Undefined directive x:y\n     <x:y/></p>\n      ^^^\n" ∧
      ∃ a p tables j nodes diagnostics, Arguments.parse faultyArguments = .ok a ∧
        Prepares faultyFiles a p tables j ∧ Compiles j nodes diagnostics ∧ diagnostics ≠ [] := by
  obtain ⟨a, accepted⟩ : ∃ a, Arguments.parse faultyArguments = .ok a := ⟨_, rfl⟩
  obtain ⟨problems, -, -, all⟩ := run_all_or_nothing faultyFiles faultyArguments a accepted
  obtain ⟨p, tables, j, nodes, diagnostics, prepared, compiled, some⟩ :=
    problems.mp (by decide +kernel)
  refine ⟨((all p tables j prepared).1 nodes diagnostics compiled some).1, by decide +kernel, ?_⟩
  exact ⟨a, p, tables, j, nodes, diagnostics, accepted, prepared, compiled, some⟩

end CommandLine

end DirectiveTemplates
