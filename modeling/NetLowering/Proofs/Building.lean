import NetLowering.Plan.Build
import NetLowering.Proofs.Numbering

/-! # Calls to a builder

A builder is any state machine, and may refuse any call. To say which calls it gets, `Builder.recorded`
makes it keep a record of them: of each call, what it was given and what it answered. Recording changes
nothing else, and the record of a lowering is empty if there is no plan; otherwise it is an attempt to add
the plan nodes in order that ends with the first refusal, or with the one call that finishes the target
(`lower_calls`). As plan nodes read only plan nodes before them, the builder has been given the handles of
all operands when a node is added. -/

namespace NetLowering

/-- A call to a builder: what it is given, and the answer. -/
inductive Call (π : Type) where
  | add (node : PlanNode) (handles : Nat → Option π) (answer : Except String π)
  | finish (inputs : List PlanNode) (outputs : List PlanOutput) (answer : Except String Unit)

namespace Call

variable {π : Type}

/-- The handle that a call brought about, with the number of its plan node. -/
def handle? : Call π → Option (Nat × π)
  | .add p _ (.ok handle) => some (p.id, handle)
  | _ => none

/-- The call added the plan node. -/
def Added (p : PlanNode) (call : Call π) : Prop := ∃ handles handle, call = .add p handles (.ok handle)

/-- The call was to add the plan node, and was refused. -/
def Refused (p : PlanNode) (call : Call π) : Prop := ∃ handles text, call = .add p handles (.error text)

/-- The call adds no plan node, or one for all of whose operands it is given the handle that an earlier
call brought about. -/
def SeesOperands (earlier : List (Call π)) : Call π → Prop
  | .add p handles _ => ∀ o ∈ p.primitive.operands, ∃ handle, handles o.source = some handle ∧
      (o.source, handle) ∈ earlier.filterMap handle?
  | .finish _ _ _ => True

/-- Every call sees the operands of what it adds. -/
def AllSeeOperands (calls : List (Call π)) : Prop :=
  ∀ (i : Nat) (call : Call π), calls[i]? = some call → call.SeesOperands (calls.take i)

theorem AllSeeOperands.concat {calls : List (Call π)} {call : Call π} (h : AllSeeOperands calls)
    (hcall : call.SeesOperands calls) : AllSeeOperands (calls ++ [call]) := by
  intro i other hi
  rcases Nat.lt_or_ge i calls.length with hlt | hge
  · rw [List.getElem?_append_left hlt] at hi
    rw [List.take_append_of_le_length (Nat.le_of_lt hlt)]
    exact h i other hi
  · have hlt := (List.getElem?_eq_some_iff.mp hi).1
    rw [List.length_append, List.length_singleton] at hlt
    have hlen : i = calls.length := by omega
    rw [hlen, List.getElem?_concat_length] at hi
    cases hi
    rw [hlen, List.take_left]
    exact hcall

/-- The calls were to add the plan nodes in order, and ended with the first that was refused. -/
def Refuses (nodes : List PlanNode) (calls : List (Call π)) : Prop :=
  ∃ pre q post adds last, nodes = pre ++ q :: post ∧ List.Forall₂ Added pre adds ∧ last.Refused q ∧
    calls = adds ++ [last]

theorem Refuses.cons {nodes : List PlanNode} {calls : List (Call π)} {p : PlanNode} {call : Call π}
    (hcall : call.Added p) (h : Refuses nodes calls) : Refuses (p :: nodes) (call :: calls) := by
  obtain ⟨pre, q, post, adds, last, rfl, hadds, hlast, rfl⟩ := h
  exact ⟨p :: pre, q, post, call :: adds, last, rfl, .cons hcall hadds, hlast, rfl⟩

end Call

/-- The calls of an attempt to build a plan: all plan nodes were added in order, and then there was one
call to finish; or the attempt ended with the first plan node that was refused. -/
def Plan.BuiltBy {π : Type} (p : Plan) (calls : List (Call π)) : Prop :=
  (∃ adds answer, List.Forall₂ Call.Added p.nodes adds ∧
    calls = adds ++ [.finish p.inputs p.outputs answer]) ∨
  Call.Refuses p.nodes calls

namespace Builder

variable {σ π : Type}

/-- The builder, with a record of the calls to it. -/
def recorded (b : Builder σ π) : Builder (σ × List (Call π)) π where
  addNode := fun (state, calls) p handles =>
    let (next, answer) := b.addNode state p handles
    ((next, calls ++ [.add p handles answer]), answer)
  finish := fun (state, calls) inputs outputs =>
    let (next, answer) := b.finish state inputs outputs
    ((next, calls ++ [.finish inputs outputs answer]), answer)

variable (b : Builder σ π) (run : String)

theorem addAll_cons (state : σ) (handles : List (Nat × π)) (p : PlanNode) (rest : List PlanNode) :
    b.addAll run state handles (p :: rest) =
      match b.addNode state p fun id => handles.lookup id with
      | (next, .ok handle) => b.addAll run next (handles ++ [(p.id, handle)]) rest
      | (next, .error text) =>
          (next, .error ((Error.of (.reported text)).within (.adding run p.name p.group))) := rfl

theorem recorded_addNode {state next : σ} {p : PlanNode} {handles : Nat → Option π}
    {answer : Except String π} (calls : List (Call π)) (h : b.addNode state p handles = (next, answer)) :
    b.recorded.addNode (state, calls) p handles = ((next, calls ++ [.add p handles answer]), answer) := by
  change (match b.addNode state p handles with
    | (next, answer) => ((next, calls ++ [Call.add p handles answer]), answer)) = _
  rw [h]

theorem recorded_finish {state last : σ} {inputs : List PlanNode} {outputs : List PlanOutput}
    {answer : Except String Unit} (calls : List (Call π))
    (h : b.finish state inputs outputs = (last, answer)) :
    b.recorded.finish (state, calls) inputs outputs =
      ((last, calls ++ [.finish inputs outputs answer]), answer) := by
  change (match b.finish state inputs outputs with
    | (last, answer) => ((last, calls ++ [Call.finish inputs outputs answer]), answer)) = _
  rw [h]

theorem recorded_addAll (state : σ) (calls : List (Call π)) (handles : List (Nat × π))
    (nodes : List PlanNode) :
    ∃ more, b.recorded.addAll run (state, calls) handles nodes =
        (((b.addAll run state handles nodes).1, calls ++ more), (b.addAll run state handles nodes).2) ∧
      ((∃ given, (b.addAll run state handles nodes).2 = .ok given) ∧ List.Forall₂ Call.Added nodes more ∨
        (∃ e, (b.addAll run state handles nodes).2 = .error e) ∧ Call.Refuses nodes more) := by
  induction nodes generalizing state calls handles with
  | nil => exact ⟨[], by rw [List.append_nil]; rfl, .inl ⟨⟨handles, rfl⟩, .nil⟩⟩
  | cons p rest ih =>
      rcases hadd : b.addNode state p fun id => handles.lookup id with ⟨next, answer⟩
      rw [addAll_cons, addAll_cons, hadd, b.recorded_addNode calls hadd]
      cases answer with
      | error text =>
          refine ⟨[_], rfl, .inr ⟨⟨_, rfl⟩, [], p, rest, [], _, rfl, .nil, ⟨_, text, rfl⟩, rfl⟩⟩
      | ok handle =>
          dsimp only
          obtain ⟨more, heq, hmore⟩ := ih next
            (calls ++ [.add p (fun id => handles.lookup id) (.ok handle)]) (handles ++ [(p.id, handle)])
          have hcall : Call.Added p (.add p (fun id => handles.lookup id) (.ok handle)) :=
            ⟨_, handle, rfl⟩
          refine ⟨.add p (fun id => handles.lookup id) (.ok handle) :: more, ?_, ?_⟩
          · rw [heq, List.append_assoc, List.singleton_append]
          · rcases hmore with ⟨hok, hadds⟩ | ⟨herr, hrefuses⟩
            · exact .inl ⟨hok, .cons hcall hadds⟩
            · exact .inr ⟨herr, hrefuses.cons hcall⟩

theorem recorded_build (state : σ) (p : Plan) :
    ∃ calls, b.recorded.build run (state, []) p =
        (((b.build run state p).1, calls), (b.build run state p).2) ∧ p.BuiltBy calls := by
  obtain ⟨adds, heq, hcases⟩ := b.recorded_addAll run state [] [] p.nodes
  unfold build
  rw [heq, List.nil_append]
  rcases hadd : b.addAll run state [] p.nodes with ⟨next, result⟩
  rw [hadd] at hcases
  rcases hcases with ⟨⟨given, rfl⟩, hadds⟩ | ⟨⟨e, rfl⟩, hrefuses⟩
  · rcases hfinish : b.finish next p.inputs p.outputs with ⟨last, answer⟩
    refine ⟨adds ++ [.finish p.inputs p.outputs answer], ?_, .inl ⟨adds, answer, hadds, rfl⟩⟩
    dsimp only
    rw [b.recorded_finish adds hfinish, hfinish]
    cases answer <;> rfl
  · exact ⟨adds, rfl, .inr hrefuses⟩

/-! ### Handles of operands -/

theorem lookup_of_mem_ids {handles : List (Nat × π)} {id : Nat} (h : id ∈ handles.map Prod.fst) :
    ∃ handle, handles.lookup id = some handle ∧ (id, handle) ∈ handles := by
  cases hlookup : handles.lookup id with
  | none =>
      obtain ⟨entry, hentry, rfl⟩ := List.mem_map.mp h
      rw [List.lookup_eq_none_iff] at hlookup
      exact absurd (hlookup entry hentry) (by simp)
  | some handle =>
      obtain ⟨before, after, rfl, _⟩ := List.lookup_eq_some_iff.mp hlookup
      exact ⟨handle, rfl, by simp⟩

/-- Adding the rest of the plan nodes, when the handles are those of the calls so far. -/
theorem recorded_addAll_sees {p : Plan} (hp : p.table.Ordered) {done rest : List PlanNode}
    (hsplit : p.nodes = done ++ rest) {state : σ} {calls : List (Call π)} {handles : List (Nat × π)}
    (hhandles : handles = calls.filterMap Call.handle?)
    (hdone : handles.map Prod.fst = done.map PlanNode.id) (hsees : Call.AllSeeOperands calls) :
    Call.AllSeeOperands (b.recorded.addAll run (state, calls) handles rest).1.2 := by
  induction rest generalizing done state calls handles with
  | nil => exact hsees
  | cons q rest ih =>
      have hcall (answer : Except String π) :
          Call.SeesOperands calls (.add q (fun id => handles.lookup id) answer) := by
        intro o ho
        have hq : q ∈ p.table.nodes := by
          change q ∈ p.nodes
          rw [hsplit]
          exact List.mem_append_right _ List.mem_cons_self
        -- an operand has a smaller number, so it is among the plan nodes that were added
        obtain ⟨source, hsource, hid, hlt⟩ := hp.operands q hq o ho
        have hbefore : source ∈ done := hp.mem_of_id_lt hsplit hsource hlt
        rw [← hid, ← hhandles]
        exact lookup_of_mem_ids (hdone ▸ List.mem_map_of_mem hbefore)
      rcases hadd : b.addNode state q fun id => handles.lookup id with ⟨next, answer⟩
      rw [addAll_cons, b.recorded_addNode calls hadd]
      cases answer with
      | error text => exact hsees.concat (hcall _)
      | ok handle =>
          have hlater : p.nodes = (done ++ [q]) ++ rest := by rw [hsplit, List.append_assoc]; rfl
          refine ih hlater ?_ ?_ (hsees.concat (hcall _))
          · rw [List.filterMap_append, ← hhandles]
            rfl
          · rw [List.map_append, hdone, List.map_append]
            rfl

theorem recorded_build_sees {p : Plan} (hp : p.table.Ordered) (state : σ) :
    Call.AllSeeOperands (b.recorded.build run (state, []) p).1.2 := by
  have hadds : Call.AllSeeOperands (b.recorded.addAll run (state, []) [] p.nodes).1.2 :=
    b.recorded_addAll_sees run hp (List.nil_append _).symm rfl rfl (by intro i call h; cases h)
  unfold build
  rcases hadd : b.recorded.addAll run (state, []) [] p.nodes with ⟨⟨next, calls⟩, result⟩
  rw [hadd] at hadds
  cases result with
  | error e => exact hadds
  | ok given =>
      rcases hfinish : b.finish next p.inputs p.outputs with ⟨last, answer⟩
      dsimp only
      rw [b.recorded_finish calls hfinish]
      have hsees : Call.AllSeeOperands (calls ++ [.finish p.inputs p.outputs answer]) :=
        hadds.concat trivial
      cases answer with
      | error text => exact hsees
      | ok done => exact hsees

end Builder

/-- The calls to a builder. Recording them changes neither the state that is reached nor the result, and
they are the same whether or not the run keeps a trace. There are none if there is no plan, and the state
is the one before; otherwise they build the plan, and are given the handles of all operands, since the
operands of a plan node have smaller numbers. -/
theorem lower_calls {σ π : Type} (b : Builder σ π) (state : σ) (o : Options) (name : String) (m : Model) :
    ∃ calls, b.recorded.lower (state, []) o name m =
        (((b.lower state o name m).1, calls), (b.lower state o name m).2) ∧
      b.recorded.lowerTraced (state, []) o name m =
        (((b.lowerTraced state o name m).1, calls), (b.lowerTraced state o name m).2) ∧
      match plan o name m with
      | .error e => calls = [] ∧ b.lower state o name m = (state, .error e)
      | .ok p => p.BuiltBy calls ∧ Call.AllSeeOperands calls ∧ (p.nodes.map PlanNode.id).Nodup ∧
          ∀ q ∈ p.nodes, ∀ operand ∈ q.primitive.operands,
            operand.source < q.id ∧ ∃ source ∈ p.nodes, source.id = operand.source := by
  unfold Builder.lower Builder.lowerTraced
  cases htraced : planTraced o name m with
  | error halt =>
      have hplan : plan o name m = .error halt.error := by rw [plan, htraced]
      rw [hplan]
      exact ⟨[], rfl, rfl, rfl, rfl⟩
  | ok result =>
      obtain ⟨p, trace⟩ := result
      have hplan : plan o name m = .ok p := by rw [plan, htraced]
      obtain ⟨paddings, start, final, hp⟩ := plan_eq_ok hplan
      obtain ⟨calls, heq, hbuilt⟩ := b.recorded_build name state p
      have hsees := b.recorded_build_sees name hp.ordered state
      rw [heq] at hsees
      rw [hplan]
      refine ⟨calls, heq, ?_, hbuilt, hsees, hp.ordered.ids_nodup, fun q hq operand hoperand => ?_⟩
      · dsimp only
        rw [heq]
        rcases b.build name state p with ⟨last, answer⟩
        cases answer <;> rfl
      · obtain ⟨source, hsource, hid, hlt⟩ := hp.ordered.operands q hq operand hoperand
        exact ⟨hid ▸ hlt, source, hsource, hid⟩

end NetLowering
