import Mathlib
import NetLowering.Proofs.Lockstep
import NetLowering.Proofs.Parts
import NetLowering.Proofs.Resolution

/-! # Models without their `skip` nodes

`skip` nodes are never scheduled, and the readers of a value count without them, so a model is lowered as it
would be if they had not been added. The two runs differ in their records alone: `Alike` relates computations
that come to the same but for the record, and `lowerNode_alike` is the step of the runs.
`plan_of_withoutSkips` compares the plans, or the errors if there is none. -/

namespace NetLowering

/-! ### Runs that differ in their records -/

/-- The computations come to the same but for the record: related results, or the same error. -/
inductive Alike {α β : Type} (R : α → β → Prop) : Except Halt α → Except Halt β → Prop
  | ok {a : α} {b : β} : R a b → Alike R (.ok a) (.ok b)
  | error {h h' : Halt} : h'.error = h.error → Alike R (.error h) (.error h')

namespace Alike
variable {α β γ δ : Type} {R : α → β → Prop} {S : γ → δ → Prop}

theorem bind {x : Except Halt α} {y : Except Halt β} {f : α → Except Halt γ} {g : β → Except Halt δ}
    (hx : Alike R x y) (hf : ∀ a b, R a b → Alike S (f a) (g b)) : Alike S (x >>= f) (y >>= g) := by
  cases hx with
  | ok h => exact hf _ _ h
  | error h => exact .error h

theorem foldlM {ι : Type} {f : α → ι → Except Halt α} {g : β → ι → Except Halt β} {xs : List ι} {a : α}
    {b : β} (hstep : ∀ x ∈ xs, ∀ a b, R a b → Alike R (f a x) (g b x)) (h : R a b) :
    Alike R (xs.foldlM f a) (xs.foldlM g b) := by
  induction xs generalizing a b with
  | nil => exact .ok h
  | cons x rest ih =>
      rw [List.foldlM_cons, List.foldlM_cons]
      exact (hstep x List.mem_cons_self a b h).bind fun a' b' h' =>
        ih (fun y hy => hstep y (List.mem_cons_of_mem _ hy)) h'

end Alike

section blocks
variable {c : Context} {nodes : List Node}

/-- The context with other nodes in the model. -/
def Context.among (c : Context) (nodes : List Node) : Context :=
  { c with model := { c.model with nodes } }

/-- Of the model, converters see the tensors alone. Scripts may also count the nodes. -/
theorem Action.convert_among {a : Action} (ha : a.isScript = false) (c : Context) (nodes : List Node) :
    a.convert (c.among nodes) = a.convert c := by
  cases a with
  | script s => cases ha
  | _ => rfl

theorem Block.applicable_among (block : Block) :
    Block.applicable (c.among nodes) block = Block.applicable c block := by
  induction block with
  | nil => rfl
  | cons cv rest ih =>
      have hholds : ∀ condition : Condition, condition.holds (c.among nodes) = condition.holds c := by
        intro condition
        cases condition <;> rfl
      unfold Block.applicable
      rw [ih]
      simp only [hholds]
      rfl

/-- The blocks under way differ in their records alone. -/
structure BlockRun.SameButRecord (s s' : BlockRun) : Prop where
  table : s'.run.table = s.run.table
  previous : s'.previous = s.previous
  forwarded : s'.forwarded = s.forwarded

theorem BlockRun.SameButRecord.step_alike {s s' : BlockRun} {e : Element} (hs : s.SameButRecord s')
    (he : e.converter.action.isScript = false) :
    Alike BlockRun.SameButRecord (s.step c e) (s'.step (c.among nodes) e) := by
  obtain ⟨⟨table, trace⟩, previous, forwarded⟩ := s
  obtain ⟨⟨table', trace'⟩, previous', forwarded'⟩ := s'
  obtain ⟨rfl, rfl, rfl⟩ := hs
  have hconvert := Action.convert_among he
    { c with table := table', isFirst := e.isFirst, isLast := e.isLast, previous := previous' } nodes
  unfold BlockRun.step
  dsimp only [Context.among] at hconvert ⊢
  rw [hconvert]
  cases hresult : e.converter.action.convert
    { c with table := table', isFirst := e.isFirst, isLast := e.isLast, previous := previous' } with
  | mk exchanges result =>
      cases result with
      | error err => exact .error rfl
      | ok outcome =>
          cases hemit : outcome.emit with
          | none =>
              dsimp only
              rw [hemit]
              exact .ok ⟨rfl, rfl, rfl⟩
          | some primitive =>
              dsimp only
              rw [hemit]
              exact .ok ⟨rfl, rfl, rfl⟩

theorem BlockRun.SameButRecord.finish_alike {s s' : BlockRun} (hs : s.SameButRecord s') (n : Node) :
    Alike (fun r r' : Run => r'.table = r.table) (s.finish n) (s'.finish n) := by
  unfold BlockRun.finish
  rw [hs.previous, hs.forwarded]
  cases s.previous with
  | some p => exact .ok hs.table
  | none =>
      cases s.forwarded with
      | some p => exact .ok (congrArg (·.own n p) hs.table)
      | none => exact .error rfl

/-- A node is lowered alike whatever other nodes the model has. -/
theorem lowerNode_alike {o : Options} {m : Model} {paddings paddings' : Propagation} {r r' : Run} {n : Node}
    (hreg : o.registry = .standard) (hpad : paddings'.outputPadding n.id = paddings.outputPadding n.id)
    (htable : r'.table = r.table) : Alike (fun r r' : Run => r'.table = r.table)
      (r.lowerNode o m paddings n) (r'.lowerNode o { m with nodes } paddings' n) := by
  have hcontext : r'.context o { m with nodes } paddings' n = (r.context o m paddings n).among nodes := by
    unfold Run.context Context.among
    rw [hpad, htable]
  have happ : Block.applicable ((r.context o m paddings n).among nodes) =
      Block.applicable (r.context o m paddings n) := funext Block.applicable_among
  unfold Run.lowerNode
  dsimp only
  rw [hcontext, happ]
  cases hblock : o.registry.lookup n.kind >>= Block.applicable (r.context o m paddings n) with
  | error e => exact .error rfl
  | ok block =>
      obtain ⟨listed, hlookup, happ⟩ := bind_eq_ok_iff.mp hblock
      have hform : Registry.StandardForm n.kind listed := Registry.lookup_standard (hreg ▸ hlookup)
      have hscript : ∀ e ∈ Block.elements false block, e.converter.action.isScript = false := by
        intro e he
        have hcv : e.converter ∈ block := elements_converters false block ▸ List.mem_map_of_mem he
        obtain ⟨rfl, _⟩ := applicable_eq_ok happ
        exact hform.isScript _ (List.mem_of_mem_filter hcv)
      have hfold : Alike BlockRun.SameButRecord
          ((Block.elements false block).foldlM (BlockRun.step (r.context o m paddings n)) { run := r })
          ((Block.elements false block).foldlM
            (BlockRun.step ((r.context o m paddings n).among nodes)) { run := r' }) :=
        Alike.foldlM (fun e he s s' hs => hs.step_alike (hscript e he)) ⟨htable, rfl, rfl⟩
      exact hfold.bind fun s s' hs => hs.finish_alike n

end blocks

/-! ### Models without `skip` nodes -/

namespace Model

def withoutSkips (m : Model) : Model := { m with nodes := m.nodes.filter fun n => n.kind ≠ .skip }

theorem withoutSkips_partOf (m : Model) : PartOf m.withoutSkips m fun n => n.kind ≠ .skip where
  nodes := rfl
  apart := fun _ _ _ b _ hout hskip => absurd (by simpa using hout) hskip

theorem Reachable.withoutSkips {m : Model} (h : m.Reachable) : m.withoutSkips.Reachable :=
  h.tensors.add_nodes (m.withoutSkips_partOf.consistent h.consistent)

theorem order_withoutSkips {m : Model} (hm : m.Consistent) :
    (scheduleWithout m.withoutSkips m.withoutSkips.propagation.isCyclic).order =
      (scheduleWithout m m.propagation.isCyclic).order := by
  rw [m.withoutSkips_partOf.order fun n hn => m.withoutSkips_partOf.isCyclic_eq hm hn, List.filter_eq_self]
  intro n hn
  simpa using (mem_of_mem_order hn).2.1

end Model

/-! ### Plans -/

/-- The plans differ only in the `skip` nodes that the first reports as left out. -/
structure Plan.SameButSkips (p p' : Plan) : Prop where
  order : p'.order = p.order
  nodes : p'.nodes = p.nodes
  inputs : p'.inputs = p.inputs
  outputs : p'.outputs = p.outputs
  dropped : p'.dropped = p.dropped.filter fun d => d.kind ≠ .skip

section plans
variable {o : Options} {m m' : Model} {name : String}

/-- Plans without their records are related, or fail with the same error. -/
theorem Alike.plan {R : Plan → Plan → Prop}
    (h : Alike (fun a b => R a.1 b.1) (planTraced o name m) (planTraced o name m')) :
    (∃ p p', NetLowering.plan o name m = .ok p ∧ NetLowering.plan o name m' = .ok p' ∧ R p p') ∨
      ∃ e, NetLowering.plan o name m = .error e ∧ NetLowering.plan o name m' = .error e := by
  unfold NetLowering.plan
  generalize planTraced o name m = x at h ⊢
  generalize planTraced o name m' = y at h ⊢
  cases h with
  | @ok a b hab => exact .inl ⟨a.1, b.1, rfl, rfl, hab⟩
  | @error h h' herror => exact .inr ⟨h.error, rfl, congrArg Except.error herror⟩

theorem plan_of_order_nil {paddings : Propagation} (hpad : propagate o.strictPadding m = .ok paddings)
    (hnil : (scheduleWithout m paddings.isCyclic).order = []) :
    plan o name m = .error (.of (.nothingScheduled name m.nodes.length)) := by
  unfold plan planTraced
  rw [hpad]
  dsimp only
  rw [hnil]
  rfl

theorem planTraced_withoutSkips (hm : m.Consistent) (hreg : o.registry = .standard)
    (hstrict : o.strictPadding = false) (hne : (scheduleWithout m m.propagation.isCyclic).order ≠ []) :
    Alike (fun a b => a.1.SameButSkips b.1) (planTraced o name m) (planTraced o name m.withoutSkips) := by
  have hpart := m.withoutSkips_partOf
  have hreports : Model.PartOf.Reports m (fun n => n.kind ≠ .skip) fun d => d.kind ≠ .skip :=
    fun _ _ _ => rfl
  have hdropped : m.withoutSkips.propagation.dropped ++
      (scheduleWithout m.withoutSkips m.withoutSkips.propagation.isCyclic).dropped =
        (m.propagation.dropped ++ (scheduleWithout m m.propagation.isCyclic).dropped).filter
          fun d => d.kind ≠ .skip := by
    rw [List.filter_append, hpart.propagation_dropped hm hreports,
      hpart.dropped (fun n hn => hpart.isCyclic_eq hm hn) hreports]
  have hstep : ∀ n ∈ (scheduleWithout m m.propagation.isCyclic).order, ∀ r r' : Run,
      r'.table = r.table → Alike (fun r r' : Run => r'.table = r.table)
        (r.lowerNode o m m.propagation n)
        (r'.lowerNode o m.withoutSkips m.withoutSkips.propagation n) := by
    intro n hn r r' htable
    obtain ⟨hmem, hskip, hcyclic⟩ := mem_of_mem_order hn
    have hmem' : n ∈ m.withoutSkips.nodes := hpart.mem_nodes_iff.mpr ⟨hmem, by simpa using hskip⟩
    exact lowerNode_alike hreg (hpart.outputPadding_eq hm hmem' hcyclic) htable
  unfold planTraced
  rw [propagate_eq_ok_iff.mpr ⟨by simp [hstrict], rfl⟩, propagate_eq_ok_iff.mpr ⟨by simp [hstrict], rfl⟩]
  dsimp only
  rw [Model.order_withoutSkips hm, if_neg (by simpa using hne), if_neg (by simpa using hne)]
  refine Alike.bind (Alike.foldlM hstep ?_) ?_
  · rfl
  · intro r r' htable
    refine .ok ⟨rfl, ?_, ?_, ?_, hdropped⟩
    · exact congrArg Ownership.nodes htable
    · exact congrArg (fun t : Ownership => t.nodes.filter fun q => q.primitive.kind = .input) htable
    · exact congrArg (Plan.outputsOf _) htable

end plans

/-- Outside strict mode `skip` nodes carry no meaning: with and without them a model has the same plan, or
none for the same reason. -/
theorem plan_of_withoutSkips (o : Options) (name : String) (m : Model) (hm : m.Reachable)
    (hreg : o.registry = .standard) (hstrict : o.strictPadding = false) :
    m.withoutSkips.Reachable ∧
      ((∃ p p', plan o name m = .ok p ∧ plan o name m.withoutSkips = .ok p' ∧ p.SameButSkips p') ∨
        ∃ e e', plan o name m = .error e ∧ plan o name m.withoutSkips = .error e' ∧
          e'.class? = e.class? ∧ e'.node? = e.node? ∧ (e.class? ≠ some .emptyGraph → e' = e)) := by
  refine ⟨hm.withoutSkips, ?_⟩
  by_cases hnil : (scheduleWithout m m.propagation.isCyclic).order = []
  · have hnil' := (Model.order_withoutSkips hm.consistent).trans hnil
    have hpad (m : Model) : propagate o.strictPadding m = .ok m.propagation :=
      propagate_eq_ok_iff.mpr ⟨by simp [hstrict], rfl⟩
    exact .inr ⟨_, _, plan_of_order_nil (hpad _) hnil, plan_of_order_nil (hpad _) hnil', rfl, rfl,
      fun hclass => absurd rfl hclass⟩
  · rcases (planTraced_withoutSkips hm.consistent hreg hstrict hnil).plan with hplans | ⟨e, he, he'⟩
    · exact .inl hplans
    · exact .inr ⟨e, e, he, he', rfl, rfl, fun _ => rfl⟩

/-- An image with a `skip` node on it, and a `skip` node whose output goes round in a loop. -/
def probedImage : List Node :=
  [{ id := "image", kind := .input, outputs := ["x"], outputShapes := [⟨[3, 4, 4], .channelRowColumn⟩] },
   { id := "probe", kind := .skip, inputs := ["x"], outputs := ["p"], inputPadding := ⟨2, .zeros⟩ },
   { id := "relu", kind := .relu, inputs := ["x"], outputs := ["out"] },
   { id := "loop", kind := .splice, inputs := ["p", "l"], outputs := ["l"] }]

theorem plan_of_withoutSkips_probedImage : ∃ p p',
    plan standardOptions "net" ⟨probedImage, []⟩ = .ok p ∧
      plan standardOptions "net" (Model.withoutSkips ⟨probedImage, []⟩) = .ok p' ∧
      p.order.length = 2 ∧ p.SameButSkips p' := by
  have hreach : (Model.mk probedImage []).Reachable :=
    Model.reachable_of_consistent ⟨by decide, by decide, by decide, by decide⟩
  obtain ⟨p, hplan, horder⟩ : ∃ p, plan standardOptions "net" ⟨probedImage, []⟩ = .ok p ∧
      p.order = _ := exists_plan_of_order (by cbv) (List.cons_ne_nil _ _)
  rcases (plan_of_withoutSkips standardOptions "net" _ hreach rfl rfl).2 with
    ⟨q, q', hq, hq', hsame⟩ | ⟨e, _, he, _⟩
  · rw [hplan] at hq
    cases hq
    exact ⟨p, q', hplan, hq', congrArg List.length horder, hsame⟩
  · rw [hplan] at he
    cases he

end NetLowering
