import DirectiveTemplates.Proofs.Live.Rendering

/-!
Running templates over a history of models and renders. The components always fit the nodes, so
what a render writes and answers depends on the nodes and the model alone.
-/
namespace DirectiveTemplates.Live

open Json

inductive Command where
  | setModel (model : Value)
  | render

def latestModel (model : Value) : List Command → Value
  | [] => model
  | .setModel model' :: commands => latestModel model' commands
  | .render :: commands => latestModel model commands

namespace Instance

def after (t : Instance) : Command → Instance
  | .setModel model => t.setModel model
  | .render => t.render.2

def run (t : Instance) : List Command → Instance
  | [] => t
  | command :: commands => (t.after command).run commands

def environment : Environment := Environment.empty.bind thisName 0

/-- A running template fits its nodes, in the scene of its world. -/
structure Running (nodes : List TemplateNode) (model : Value) (t : Instance) (x : Scene)
    (l : Shape) : Prop where
  interpreter : t.interpreter = .standard
  forest : t.nodes = nodes
  this : t.this = 0
  world : t.world = x.world
  made : FragmentMade x nodes 1 environment t.root l
  stands : l.Stands x.slots none
  nodup : l.ids.Nodup
  there : 0 < x.cells.size
  busy : ¬ x.idle 0
  model : x.cells.get 0 = model

theorem environment_below : environment.Below 1 := by
  intro name c hc
  simp only [environment, Environment.bind, Environment.empty, List.mem_singleton,
    Prod.mk.injEq] at hc
  rw [hc.2]
  exact Nat.zero_lt_one

theorem environment_values (cells : Cells) :
    environment.values cells = [(thisName, cells.get 0)] := rfl

variable {nodes : List TemplateNode} {model : Value} {t : Instance} {x : Scene} {l : Shape}

theorem running_create (nodes : List TemplateNode) (model : Value) :
    ∃ x l, Running nodes model (create .standard nodes model) x l := by
  let cells := (Cells.empty.create model).2
  let start : Scene := ⟨⟨.empty, ⟨cells, []⟩⟩, fun _ => False, fun _ => False.elim⟩
  obtain ⟨s, l, y, run, new, made⟩ := fragment_spec nodes start environment (m := 1) (Nat.le_refl 1)
  have eq : create .standard nodes model = ⟨.standard, nodes, s, 0, y.world⟩ := by
    let built := (Interpreter.standard.fragment nodes environment).run start.world
    show (⟨.standard, nodes, built.1, 0, built.2⟩ : Instance) = _
    simp only [built, run]
  rw [eq]
  refine ⟨y, l, rfl, rfl, rfl, rfl, made, new.stands, new.nodup, ?_, ?_, ?_⟩
  · exact new.step.cells_le
  · intro idle
    exact (new.step.idle 0 Nat.zero_lt_one).mp idle
  · exact new.step.cell 0 Nat.zero_lt_one

theorem Running.model_eq (h : Running nodes model t x l) : t.model = model := by
  rw [Instance.model, h.world, h.this]
  exact h.model

theorem Running.setModel (h : Running nodes model t x l) (model' : Value) :
    Running nodes model' (t.setModel model') (x.withCell 0 model' h.busy) l := by
  have step : Step (fun _ => False) 0 x (x.withCell 0 model' h.busy) :=
    Step.withCell _ x model' h.busy (Nat.le_refl 0)
  refine ⟨h.interpreter, h.forest, h.this, ?_, h.made.step step, h.stands, h.nodup, ?_, h.busy, ?_⟩
  · simp only [Instance.setModel, h.world, h.this]
    rfl
  · exact Nat.lt_of_lt_of_le h.there step.cells_le
  · exact Cells.get_set_self h.there model'

/-- A render answers as the evaluation for the model says, and the template fits its nodes again. -/
theorem Running.render (h : Running nodes model t x l) :
    ∃ y l', Running nodes model t.render.2 y l' ∧
      Answers (Evaluation.nodes nodes [(thisName, model)]) t.render.1 l'.html := by
  obtain ⟨r, s', l', y, run, made, drawn, answers⟩ :=
    fragment_render_spec (fun n _ => render_spec n) x none 1 environment t.root l
      environment_below h.made h.stands h.nodup
  have eq : t.render = (r, ⟨.standard, nodes, s', 0, y.world⟩) := by
    simp only [Instance.render, h.interpreter, h.forest, h.world, h.this, run]
  rw [eq]
  refine ⟨y, l', ⟨rfl, rfl, rfl, rfl, made, drawn.stands, drawn.ids.1, ?_, ?_, ?_⟩, ?_⟩
  · exact Nat.lt_of_lt_of_le h.there drawn.step.cells_le
  · exact fun idle => h.busy ((drawn.step.idle 0 h.there).mp idle)
  · exact (drawn.step.cell 0 Nat.zero_lt_one).trans h.model
  · rw [environment_values, h.model] at answers
    exact answers

theorem Running.html (h : Running nodes model t x l) : t.html = String.ofList l.html := by
  have slot : t.root.slot = l.slot := h.made.slot_eq
  rw [Instance.html, h.world, slot]
  exact Shape.html_of_stands h.stands h.nodup

theorem Running.run (h : Running nodes model t x l) (commands : List Command) :
    ∃ y l', Running nodes (latestModel model commands) (t.run commands) y l' := by
  induction commands generalizing model t x l with
  | nil => exact ⟨x, l, h⟩
  | cons command commands ih =>
    cases command with
    | setModel model' => exact ih (h.setModel model')
    | render =>
      obtain ⟨y, l', running, -⟩ := h.render
      exact ih running

theorem render_after (nodes : List TemplateNode) (model : Value) (commands : List Command) :
    Answers (Evaluation.nodes nodes [(thisName, latestModel model commands)])
      ((create .standard nodes model).run commands).render.1
      ((create .standard nodes model).run commands).render.2.html.toList := by
  obtain ⟨x, l, created⟩ := running_create nodes model
  obtain ⟨y, l', running⟩ := created.run commands
  obtain ⟨z, l'', rendered, answers⟩ := running.render
  rw [rendered.html, String.toList_ofList]
  exact answers

theorem model_run (nodes : List TemplateNode) (model : Value) (commands : List Command) :
    ((create .standard nodes model).run commands).model = latestModel model commands := by
  obtain ⟨x, l, created⟩ := running_create nodes model
  obtain ⟨y, l', running⟩ := created.run commands
  exact running.model_eq

/-- After any models and renders, a template answers a render like a new template with its model,
and what it then shows is the direct evaluation of its nodes. -/
theorem render_eq_first_render (nodes : List TemplateNode) (model : Value)
    (commands : List Command) :
    let t := (create .standard nodes model).run commands
    let written := Evaluation.nodes nodes [(thisName, t.model)]
    t.model = latestModel model commands ∧
      t.render.1 = (create .standard nodes t.model).render.1 ∧
      t.render.1 = written.map (fun _ => ()) ∧
      (t.render.1 = .ok () → written = .ok t.render.2.html.toList) := by
  intro t written
  have current : t.model = latestModel model commands := model_run nodes model commands
  have later : Answers written t.render.1 t.render.2.html.toList := by
    simp only [written, current]
    exact render_after nodes model commands
  have first := render_after nodes t.model []
  refine ⟨current, ?_, later.result, ?_⟩
  · rw [later.result]
    exact first.result.symm
  · intro ok
    rw [ok] at later
    exact later.eq_ok

end Instance

end DirectiveTemplates.Live
