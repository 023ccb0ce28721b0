import DirectiveTemplates.Binding.Tree

/-!
Bound forests as data: induction over nested nodes, and the directives of a forest at whatever
depth they stand.
-/
namespace DirectiveTemplates.TemplateNode

/-- What holds of a node when it holds of the nodes inside holds of all nodes. -/
theorem induction {P : TemplateNode → Prop} (text : ∀ value, P (.text value))
    (element : ∀ tag attributes children, (∀ n ∈ children, P n) →
      P (.element tag attributes children))
    (directive : ∀ u content, (∀ n ∈ content, P n) → P (.directive u content)) :
    ∀ n, P n := by
  intro n
  refine TemplateNode.rec (motive_1 := P) (motive_2 := fun ns => ∀ n ∈ ns, P n)
    ?_ ?_ ?_ ?_ ?_ n
  · intro tag attributes children ih
    exact element tag attributes children ih
  · exact text
  · intro u content ih
    exact directive u content ih
  · simp
  · intro n ns hn hns n' mem
    rcases List.mem_cons.mp mem with rfl | mem
    · exact hn
    · exact hns n' mem

mutual

def uses : TemplateNode → List DirectiveUse
  | .text _ => []
  | .element _ _ children => usesAll children
  | .directive u content => u :: usesAll content

def usesAll : List TemplateNode → List DirectiveUse
  | [] => []
  | n :: ns => n.uses ++ usesAll ns

end

theorem mem_usesAll {ns : List TemplateNode} {n : TemplateNode} {u : DirectiveUse} (mem : n ∈ ns)
    (used : u ∈ n.uses) : u ∈ usesAll ns := by
  induction ns with
  | nil => cases mem
  | cons n' ns ih =>
    rw [usesAll, List.mem_append]
    rcases List.mem_cons.mp mem with rfl | mem
    · exact .inl used
    · exact .inr (ih mem)

theorem usesAll_append (ns rest : List TemplateNode) :
    usesAll (ns ++ rest) = usesAll ns ++ usesAll rest := by
  induction ns with
  | nil => rfl
  | cons n ns ih => simp [usesAll, ih]

end DirectiveTemplates.TemplateNode
