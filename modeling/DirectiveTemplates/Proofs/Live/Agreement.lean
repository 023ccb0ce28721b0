import DirectiveTemplates.Proofs.Binding.Paths
import DirectiveTemplates.Proofs.Binding.Scoping
import DirectiveTemplates.Proofs.Live.CleanTemplates
import DirectiveTemplates.Proofs.Live.Placing

/-!
The scope of an expression and the environment it is evaluated in. The compiler keeps types under
names and the interpreter cells; both go back to the variables of the directive around the
expression, of those around that, and to the model.
-/
namespace DirectiveTemplates

namespace TemplateNode

/-- What is planned of a forest is planned of its directives, under their own variables. -/
theorem planned_directive {c : Compiler} {calls : List CompileCall} {s : Scope} {u : DirectiveUse}
    {content : List TemplateNode} :
    {ns : List TemplateNode} → c.PlannedAll calls s ns → (u, content) ∈ directivesAll ns →
    c.PlannedIn calls (s.declareAll u.binders) u.computations u.actions ∧
      c.PlannedAll calls (s.declareAll u.binders) content
  | [], _, among => by cases among
  | n :: ns, ⟨first, rest⟩, among => by
    rcases List.mem_append.mp among with among | among
    · cases n with
      | text value => cases among
      | element tag attributes children => exact planned_directive first among
      | directive u' content' =>
        cases List.mem_singleton.mp among
        exact first
    · exact planned_directive rest among

end TemplateNode

namespace Live

/-- A variable of a directive instance: its name, the type that the compiler gave it, and the cell
that was made for it. -/
structure Variable where
  name : String
  type : ValueType
  cell : CellId

def Placement.bound (p : Placement) : List Variable :=
  List.zipWith (fun b own => ⟨b.name, b.type, own.2⟩) p.use.binders.reverse p.frame.own

/-- The variables around an expression of the innermost instance. The outermost is the model. -/
def variablesIn (className : String) : List Placement → List Variable
  | [] => [⟨Instance.thisName, .simple className, 0⟩]
  | p :: around => p.bound ++ variablesIn className around

/-- What a name means to an instance: the innermost variable with it. -/
def meaning (className : String) (chain : List Placement) (name : String) : Option Variable :=
  (variablesIn className chain).find? (·.name == name)

/-- The variables that a directive makes in cells from `c` on, the first one first. -/
def newVariables (vs : List VariableBinding) (c : Nat) : List Variable :=
  List.zipWith (fun b cell => ⟨b.name, b.type, cell⟩) vs (List.range' c vs.length)

theorem newVariables_cons (v : VariableBinding) (vs : List VariableBinding) (c : Nat) :
    newVariables (v :: vs) c = ⟨v.name, v.type, c⟩ :: newVariables vs (c + 1) := rfl

theorem cells_newVariables (vs : List VariableBinding) (c : Nat) :
    (newVariables vs c).map (·.cell) = List.range' c vs.length := by
  induction vs generalizing c with
  | nil => rfl
  | cons v vs ih =>
    rw [newVariables_cons, List.map_cons, ih, List.length_cons, List.range'_succ]

theorem declarations_declareAll (vs : List VariableBinding) (c : Nat) (s : Scope) :
    (s.declareAll vs).declarations =
      ((newVariables vs c).map fun v => (v.name, v.type)).reverse ++ s.declarations := by
  induction vs generalizing s c with
  | nil => rfl
  | cons v vs ih =>
    rw [newVariables_cons, List.map_cons, List.reverse_cons, List.append_assoc]
    exact ih (c + 1) (s.declare v.name v.type)

theorem bindings_extend (vs : List VariableBinding) (c : Nat) (f : Frame) :
    (Frame.extend vs c f).environment.bindings =
      ((newVariables vs c).map fun v => (v.name, v.cell)).reverse ++ f.environment.bindings := by
  induction vs generalizing c f with
  | nil => rfl
  | cons v vs ih =>
    rw [Frame.extend, ih, newVariables_cons, List.map_cons, List.reverse_cons, List.append_assoc]
    rfl

/-- The cells that a frame keeps for its directive are those of its variables. -/
theorem bound_extend (vs before : List VariableBinding) (c : Nat) (f : Frame) :
    List.zipWith (fun b own => (⟨b.name, b.type, own.2⟩ : Variable)) (vs.reverse ++ before)
        (Frame.extend vs c f).own =
      (newVariables vs c).reverse ++
        List.zipWith (fun b own => ⟨b.name, b.type, own.2⟩) before f.own := by
  induction vs generalizing before c f with
  | nil => rfl
  | cons v vs ih =>
    rw [Frame.extend, List.reverse_cons, List.append_assoc, List.singleton_append, ih,
      newVariables_cons, List.reverse_cons, List.append_assoc]
    rfl

/-- A frame keeps one cell for each variable, under its setter. -/
theorem setters_extend (vs : List VariableBinding) (c : Nat) (f : Frame) :
    (Frame.extend vs c f).own.map Prod.fst =
      (vs.map (·.setter)).reverse ++ f.own.map Prod.fst := by
  induction vs generalizing c f with
  | nil => rfl
  | cons v vs ih =>
    rw [Frame.extend, ih, List.map_cons, List.map_cons, List.reverse_cons, List.append_assoc]
    rfl

theorem Placed.setters {nodes : List TemplateNode} {p : Placement} {around : List Placement}
    {m : Nat} (h : Placed nodes (p :: around) m) :
    p.frame.own.map Prod.fst = (p.use.binders.map (·.setter)).reverse := by
  cases h with
  | @inside _ _ u content f w w' outer among later entered =>
    obtain ⟨cells, run, -, -⟩ := Frame.enter_eq u.binders ⟨environmentIn around, []⟩ w
    rw [run] at entered
    obtain ⟨rfl, -⟩ := Prod.mk.inj entered
    rw [setters_extend]
    exact List.append_nil _

theorem bound_opened (u : DirectiveUse) (content : List TemplateNode) (c : Nat)
    (env : Environment) :
    Placement.bound ⟨u, content, Frame.opened c u.binders env⟩ =
      (newVariables u.binders c).reverse := by
  have all := bound_extend u.binders [] c ⟨env, []⟩
  rw [List.append_nil] at all
  rw [Placement.bound, Frame.opened, all]
  exact List.append_nil _

/-- The scope and the environment inside placed instances list the same variables. -/
structure Aligned (c : Compiler) (calls : List CompileCall) (className : String)
    (nodes : List TemplateNode) (chain : List Placement) (m : Nat) (s : Scope) : Prop where
  own : ∀ p ∈ chain.head?, c.PlannedIn calls s p.use.computations p.use.actions
  planned : c.PlannedAll calls s (forestIn nodes chain)
  types : s.declarations = (variablesIn className chain).map fun v => (v.name, v.type)
  cells : (environmentIn chain).bindings =
    (variablesIn className chain).map fun v => (v.name, v.cell)
  nodup : ((variablesIn className chain).map (·.cell)).Nodup
  below : ∀ cell ∈ (variablesIn className chain).map (·.cell), cell < m

theorem exists_aligned {c : Compiler} {calls : List CompileCall} {className : String}
    {nodes : List TemplateNode} {chain : List Placement} {m : Nat}
    (planned : c.PlannedAll calls
      (Scope.empty.declare Compiler.thisName (.simple className)) nodes)
    (placed : Placed nodes chain m) : ∃ s, Aligned c calls className nodes chain m s := by
  induction placed with
  | root =>
    refine ⟨_, ?_, planned, rfl, rfl, ?_, ?_⟩
    · simp
    · simp [variablesIn]
    · simp [variablesIn]
  | @inside around m u content f w w' outer among later entered ih =>
    obtain ⟨s, aligned⟩ := ih
    obtain ⟨own, inner⟩ := TemplateNode.planned_directive aligned.planned among
    obtain ⟨cells, run, size, -⟩ := Frame.enter_eq u.binders ⟨environmentIn around, []⟩ w
    rw [run] at entered
    obtain ⟨rfl, rfl⟩ := Prod.mk.inj entered
    let first := w.data.cells.size
    have made : Placement.bound ⟨u, content, Frame.opened first u.binders (environmentIn around)⟩ =
        (newVariables u.binders first).reverse := bound_opened u content first _
    have all : variablesIn className (⟨u, content, Frame.extend u.binders first
        ⟨environmentIn around, []⟩⟩ :: around) =
        (newVariables u.binders first).reverse ++ variablesIn className around := by
      rw [variablesIn]
      exact congrArg (· ++ _) made
    refine ⟨s.declareAll u.binders, ?_, inner, ?_, ?_, ?_, ?_⟩
    · intro p mem
      obtain rfl := Option.mem_some_iff.mp mem
      exact own
    · rw [all, declarations_declareAll u.binders first, aligned.types, List.map_append,
        List.map_reverse]
    · rw [all, List.map_append, List.map_reverse, ← aligned.cells]
      exact bindings_extend u.binders first ⟨environmentIn around, []⟩
    · rw [all, List.map_append, List.map_reverse, cells_newVariables]
      refine List.nodup_append.mpr ⟨List.nodup_reverse.mpr List.nodup_range', aligned.nodup, ?_⟩
      rintro new mem old mem' rfl
      have above := (List.mem_range'_1.mp (List.mem_reverse.mp mem)).1
      have under := aligned.below new mem'
      omega
    · intro cell mem
      rw [all, List.map_append, List.map_reverse, cells_newVariables] at mem
      show cell < cells.size
      rcases List.mem_append.mp mem with mem | mem
      · have upper := (List.mem_range'_1.mp (List.mem_reverse.mp mem)).2
        omega
      · have under := aligned.below cell mem
        omega

theorem lookup_map {α : Type} (g : Variable → α) (vs : List Variable) (name : String) :
    (vs.map fun v => (v.name, g v)).lookup name = (vs.find? (·.name == name)).map g := by
  induction vs with
  | nil => rfl
  | cons v vs ih =>
    rw [List.map_cons, List.lookup_cons, List.find?_cons, Bool.beq_comm]
    cases v.name == name with
    | true => rfl
    | false => exact ih

/-- An expression that was compiled at a call and is evaluated by the innermost of some instances:
the scope knows each name by the type of its variable and the environment by the cell, and unless
the expression could not be compiled it starts with a variable. -/
structure Agrees (className : String) (chain : List Placement) (call : CompileCall)
    (plan : Json.Value) : Prop where
  types : ∀ name, call.scope.type? name = (meaning className chain name).map (·.type)
  cells : ∀ name, (environmentIn chain).cell? name = (meaning className chain name).map (·.cell)
  head : plan = TypedPlan.invalid.plan ∨
    ∃ name rest v, Path.namesOf plan = name :: rest ∧ meaning className chain name = some v

theorem Aligned.agrees {c : Compiler} {calls : List CompileCall} {className : String}
    {nodes : List TemplateNode} {chain : List Placement} {m : Nat} {s : Scope}
    (aligned : Aligned c calls className nodes chain m s) (paths : c.expressions = Path.compile)
    {call : CompileCall} (scope : call.scope = s) :
    Agrees className chain call (c.planAt call).plan ∧
      ∀ name v, Path.namesOf (c.planAt call).plan = [name] →
        meaning className chain name = some v → (c.planAt call).type = v.type := by
  have types (name : String) : s.type? name = (meaning className chain name).map (·.type) := by
    rw [Scope.type?, aligned.types, lookup_map]
    rfl
  have cells (name : String) :
      (environmentIn chain).cell? name = (meaning className chain name).map (·.cell) := by
    rw [Environment.cell?, aligned.cells, lookup_map]
    rfl
  have plan : c.planAt call = (Path.compile call.text call.expected s
      (call.imports.find c.classes.finder)).plan := by
    rw [Compiler.planAt, paths, scope]
  rw [plan]
  rcases Path.compile_spec call.text call.expected s (call.imports.find c.classes.finder) with
    invalid | ⟨name, rest, type, names, known, alone⟩
  · rw [invalid]
    refine ⟨⟨scope ▸ types, cells, .inl rfl⟩, ?_⟩
    intro name v names
    cases names
  · rw [types name] at known
    obtain ⟨v, found, rfl⟩ := Option.map_eq_some_iff.mp known
    refine ⟨⟨scope ▸ types, cells, .inr ⟨name, rest, v, names, found⟩⟩, ?_⟩
    intro name' v' names' found'
    rw [names] at names'
    obtain ⟨rfl, rfl⟩ := List.cons.inj names'
    rw [found] at found'
    cases found'
    exact alone rfl

/-- The compiler and the interpreter mean the same variables. Every expression of a placed instance
was compiled in a scope that knows exactly the names of the environment it is evaluated in; what
the scope says of a name is the type, and what the environment says is the cell, of one variable:
the innermost with the name in the instance and those around it, else the model. Different
variables have different cells, and all instances of a running template are placed. -/
theorem environment_agrees (config : Config) (classes : ClassTable) (resources : Resources)
    (source className : String) (i : Interpreter) {nodes : List TemplateNode}
    (ok : (Compiler.compile ⟨config, classes, resources, Path.compile⟩ source className).result =
      .ok nodes) :
    let c : Compiler := ⟨config, classes, resources, Path.compile⟩
    let calls := (c.compile source className).progress.calls
    (∀ p around m, Placed nodes (p :: around) m →
      p.frame.own.map Prod.fst = (p.use.binders.map (·.setter)).reverse ∧
      ((variablesIn className (p :: around)).map (·.cell)).Nodup ∧
      (∀ b ∈ p.use.computations, ∃ call ∈ calls, b.plan = c.planAt call ∧
        Agrees className (p :: around) call b.plan.plan ∧
        ∀ name v, Path.namesOf b.plan.plan = [name] →
          meaning className (p :: around) name = some v → b.plan.type = v.type) ∧
      ∀ b ∈ p.use.actions, ∃ call ∈ calls, b.plan = (c.planAt call).plan ∧
        Agrees className (p :: around) call b.plan) ∧
    ∀ t, Instance.Arises i nodes t →
      t.this = 0 ∧ ∀ chain ∈ t.placements, ∃ m, Placed nodes chain m := by
  intro c calls
  refine ⟨?_, fun t => Instance.Arises.placed⟩
  intro p around m placed
  obtain ⟨s, aligned⟩ := exists_aligned (c.plannedAll_compile ok) placed
  have own := aligned.own p rfl
  refine ⟨placed.setters, aligned.nodup, ?_, ?_⟩
  · intro b mem
    obtain ⟨call, among, scope, planned⟩ := own.computations b mem
    obtain ⟨agrees, alone⟩ := aligned.agrees rfl scope
    rw [← planned] at agrees alone
    exact ⟨call, among, planned, agrees, alone⟩
  · intro b mem
    obtain ⟨call, among, scope, planned⟩ := own.actions b mem
    refine ⟨call, among, planned, ?_⟩
    rw [planned]
    exact (aligned.agrees rfl scope).1

/-- The items of the lists in a list. -/
def nestedSource : String :=
  "<std:foreach var='x' in='this'><std:foreach var='y' in='x'>" ++
    "<std:text value='y'/></std:foreach></std:foreach>"

theorem environment_agrees_of_nested_source :
    ∃ nodes, (standardCompiler.compile nestedSource "Page").result = .ok nodes ∧
      let t := (Instance.create .standard nodes (.array [.array [.bool true]])).render.2
      t.placements.map List.length = [1, 2, 3] ∧ ∀ chain ∈ t.placements,
        ((variablesIn "Page" chain).map (·.cell)).Nodup := by
  have made : (standardCompiler.compile nestedSource "Page").result.toOption.map
      (fun nodes => (Instance.create .standard nodes
        (.array [.array [.bool true]])).render.2.placements.map List.length) =
      some [1, 2, 3] := by
    decide +kernel
  cases compiled : (standardCompiler.compile nestedSource "Page").result with
  | error failure =>
    rw [compiled] at made
    cases made
  | ok nodes =>
    rw [compiled] at made
    refine ⟨nodes, rfl, Option.some.inj made, ?_⟩
    intro chain mem
    obtain ⟨agrees, placed⟩ := environment_agrees {} .standard
      (Resources.withStandard "META-INF/flavour/directive-packages" fun _ => .absent)
      nestedSource "Page" .standard compiled
    obtain ⟨-, all⟩ := placed _ (.rendered (.created (.array [.array [.bool true]])))
    obtain ⟨m, placed⟩ := all chain mem
    cases chain with
    | nil => simp [variablesIn]
    | cons p around => exact (agrees p around m placed).2.1

end Live

end DirectiveTemplates
