import DirectiveTemplates.Proofs.Live.Bodies

/-!
Components with numbers. A body can number the components that it makes and note the ones that are
destroyed; all else goes on as without numbers, so what the notes say is true of the plain body.
-/
namespace DirectiveTemplates.Live

variable {δ ν κ α β α' β' : Type}

structure Notes where
  created : Nat
  destroyed : List Nat
  deriving DecidableEq, Repr

namespace Notes

def none : Notes := ⟨0, []⟩

def create (n : Notes) : Notes := { n with created := n.created + 1 }

def destroy (n : Notes) (number : Nat) : Notes := { n with destroyed := n.destroyed ++ [number] }

/-- Each component that was ever made is one of these or was destroyed, once. -/
def Account (n : Notes) (owned : List Nat) : Prop :=
  (owned ++ n.destroyed).Perm (List.range n.created)

theorem account_none : none.Account [] := .nil

end Notes

def World.plain (w : World (δ × ν)) : World δ := ⟨w.slots, w.data.1⟩

/-- An action that leaves the notes alone. -/
def Act.beside (x : Act δ α) : Act (δ × ν) α := fun w =>
  let (a, v) := x.run w.plain
  (a, ⟨v.slots, (v.data, w.data.2)⟩)

def Act.numbered (create : Act δ κ) : Act (δ × Notes) (Nat × κ) := do
  let number ← Act.read (·.2.created)
  Act.change (Prod.map id Notes.create)
  let c ← create.beside
  return (number, c)

/-- Components with a number each. The number of a destroyed one is noted. -/
def Kind.numbered (kind : Kind δ κ) : Kind (δ × Notes) (Nat × κ) where
  slot c := kind.slot c.2
  render c := do
    let (result, k) ← (kind.render c.2).beside
    return (result, (c.1, k))
  destroy c := do
    Act.change (Prod.map id (·.destroy c.1))
    let k ← (kind.destroy c.2).beside
    return (c.1, k)

def Event.beside : Event δ → Event (δ × ν)
  | change f => .change (Prod.map f id)
  | render => .render
  | destroy => .destroy

/-- An action on numbered components does what another one does on plain components. -/
def Follows (x : Act (δ × ν) α) (f : α → β) (y : Act δ β) : Prop :=
  ∀ w : World (δ × ν), y.run w.plain = (f (x.run w).1, (x.run w).2.plain)

namespace Follows

theorem pure (f : α → β) (a : α) : Follows (pure a : Act (δ × ν) α) f (pure (f a)) := fun _ => rfl

theorem bind {x : Act (δ × ν) α} {f : α → β} {y : Act δ β} {g : α → Act (δ × ν) α'}
    {f' : α' → β'} {g' : β → Act δ β'} (first : Follows x f y)
    (next : ∀ a, Follows (g a) f' (g' (f a))) : Follows (x >>= g) f' (y >>= g') := by
  intro w
  rw [Act.run_bind, first w]
  exact next _ _

theorem change (f : δ → δ) :
    Follows (Act.change (Prod.map f id) : Act (δ × ν) Unit) id (Act.change f) := fun _ => rfl

theorem append (p child : SlotId) :
    Follows (Act.append p child : Act (δ × ν) Unit) id (Act.append p child) := fun _ => rfl

theorem read (f : δ → α) : Follows (Act.read (f ·.1) : Act (δ × ν) α) id (Act.read f) :=
  fun _ => rfl

theorem destroyBase (b : Base) : Follows (b.destroy : Act (δ × ν) Base) id b.destroy :=
  fun _ => rfl

theorem numbered (create : Act δ κ) : Follows create.numbered Prod.snd create := fun _ => rfl

variable (kind : Kind δ κ)

theorem render (c : Nat × κ) :
    Follows (kind.numbered.render c) (Prod.map id Prod.snd) (kind.render c.2) := fun _ => rfl

theorem destroy (c : Nat × κ) :
    Follows (kind.numbered.destroy c) Prod.snd (kind.destroy c.2) := fun _ => rfl

theorem destroyAll (cs : List (Nat × κ)) :
    Follows (kind.numbered.destroyAll cs) (List.map Prod.snd)
      (kind.destroyAll (cs.map Prod.snd)) := by
  induction cs with
  | nil => exact pure _ []
  | cons c cs ih =>
    apply (destroy kind c).bind
    intro k
    apply ih.bind
    intro ks
    exact pure _ (k :: ks)

theorem performAll {γ γ' : Type} {big : Kind (δ × ν) γ} {small : Kind δ γ'} {f : γ → γ'}
    (render : ∀ c, Follows (big.render c) (Prod.map id f) (small.render (f c)))
    (destroy : ∀ c, Follows (big.destroy c) f (small.destroy (f c))) (events : List (Event δ))
    (c : γ) :
    Follows (big.performAll (events.map Event.beside) c) f (small.performAll events (f c)) := by
  induction events generalizing c with
  | nil => exact pure f c
  | cons e events ih =>
    have first : Follows (big.perform c e.beside) f (small.perform (f c) e) := by
      cases e with
      | change g => exact (change g).bind fun _ => pure f c
      | render => exact (render c).bind fun r => pure f r.2
      | destroy => exact destroy c
    exact first.bind ih

end Follows

/-! The notes. -/

namespace Kind

variable (kind : Kind δ κ) (w : World (δ × Notes))

theorem notes_destroyAll (cs : List (Nat × κ)) :
    ((kind.numbered.destroyAll cs).run w).2.data.2 =
      { w.data.2 with destroyed := w.data.2.destroyed ++ cs.map Prod.fst } := by
  induction cs generalizing w with
  | nil =>
    rw [List.map_nil, List.append_nil]
    rfl
  | cons c cs ih =>
    have later := ih ((kind.numbered.destroy c).run w).2
    rw [destroyAll, Act.run_bind, Act.run_bind, Act.run_pure, later, List.map_cons,
      List.append_cons]
    rfl

end Kind

end DirectiveTemplates.Live
