import Mathlib
import NetLowering.Proofs.Schedule

/-! # Inputs nobody reads

An input of the model is left out of the schedule if nothing that could run reads its first output. This is
decided once for all inputs, and an input that is left out takes what it reads itself with it: another input
that only it was reading stays. So what the rule gives is weaker than that every scheduled input is read by a
scheduled node. It gives exactly that as long as no input is stranded in this way, and no input can be if the
inputs of the model read nothing (`scheduled_inputs_read_iff`). -/

namespace NetLowering

/-- An output of the first node is an input of the second. -/
def Node.ReadBy (n k : Node) : Prop := ∃ x ∈ n.outputs, x ∈ k.inputs

namespace Schedule

/-- Every scheduled input of the model is read by a scheduled node. -/
def ReadsInputs (s : Schedule) : Prop := ∀ n ∈ s.order, n.kind = .input → ∃ k ∈ s.order, n.ReadBy k

/-- An input of the model is scheduled that inputs left out read, and no scheduled node. -/
def StrandsInput (m : Model) (s : Schedule) : Prop :=
  ∃ n ∈ s.order, n.kind = .input ∧ (∃ d ∈ m.nodes, s.LeavesOut d ∧ n.ReadBy d) ∧ ∀ k ∈ s.order, ¬n.ReadBy k

end Schedule

section schedules
variable {m : Model} {excluded : String → Bool} {n : Node}

theorem Node.exists_mem_of_isDeadInput_eq_false {read : List String} (hkind : n.kind = .input)
    (h : n.isDeadInput read = false) : ∃ x, n.firstOutput? = some x ∧ x ∈ read := by
  by_contra hno
  push Not at hno
  rw [Node.isDeadInput_iff.mpr ⟨hkind, hno⟩] at h
  cases h

/-- The first output of a scheduled input is read by a node that is scheduled, or was left out after it had
been counted as a reader. -/
theorem exists_reader (hm : m.Consistent) (hn : n ∈ (scheduleWithout m excluded).order)
    (hkind : n.kind = .input) : ∃ x, n.firstOutput? = some x ∧ ∃ k ∈ m.nodes, x ∈ k.inputs ∧
      (k ∈ (scheduleWithout m excluded).order ∨ (scheduleWithout m excluded).LeavesOut k) := by
  obtain ⟨x, hx, hread⟩ := Node.exists_mem_of_isDeadInput_eq_false hkind (mem_order_iff.mp hn).2
  obtain ⟨k, hk, hxk⟩ := List.mem_flatMap.mp hread
  have hkm : k ∈ m.nodes := (mem_of_mem_runnable hk).1
  refine ⟨x, hx, k, hkm, hxk, ?_⟩
  cases hdead : k.isDeadInput (m.valuesRead excluded) with
  | false => exact .inl (mem_order_iff.mpr ⟨hk, hdead⟩)
  | true => exact .inr ((leavesOut_iff hm hkm).mpr ⟨hk, hdead⟩)

theorem readsInputs_iff (hm : m.Consistent) : (scheduleWithout m excluded).ReadsInputs ↔
    ¬(scheduleWithout m excluded).StrandsInput m := by
  constructor
  · rintro hreads ⟨n, hn, hkind, _, hnone⟩
    obtain ⟨k, hk, hread⟩ := hreads n hn hkind
    exact hnone k hk hread
  · intro hstrands n hn hkind
    obtain ⟨x, hx, k, hkm, hxk, hk⟩ := exists_reader hm hn hkind
    have hread : n.ReadBy k := ⟨x, List.mem_of_mem_head? hx, hxk⟩
    rcases hk with hk | hleft
    · exact ⟨k, hk, hread⟩
    · by_contra hnone
      push Not at hnone
      exact hstrands ⟨n, hn, hkind, ⟨k, hkm, hleft, hread⟩, hnone⟩

end schedules

/-- Every scheduled input of a model is read by a scheduled node iff leaving out inputs strands none. The
rule for leaving out only gives that the first output of a scheduled input is read by a node that is scheduled
or is an input left out; this is enough if the inputs of the model read nothing. -/
theorem scheduled_inputs_read_iff (m : Model) (hm : m.Reachable) (excluded : String → Bool) :
    ((scheduleWithout m excluded).ReadsInputs ↔ ¬(scheduleWithout m excluded).StrandsInput m) ∧
    (∀ n ∈ (scheduleWithout m excluded).order, n.kind = .input → ∃ x, n.firstOutput? = some x ∧
      ∃ k ∈ m.nodes, x ∈ k.inputs ∧
        (k ∈ (scheduleWithout m excluded).order ∨ (scheduleWithout m excluded).LeavesOut k)) ∧
    ((∀ d ∈ m.nodes, d.kind = .input → d.inputs = []) → (scheduleWithout m excluded).ReadsInputs) := by
  have hcons := hm.consistent
  refine ⟨readsInputs_iff hcons, fun n hn hkind => exists_reader hcons hn hkind, fun hnothing => ?_⟩
  rw [readsInputs_iff hcons]
  rintro ⟨n, _, _, ⟨d, hd, hleft, x, _, hxd⟩, _⟩
  have hkind : d.kind = .input := (Node.isDeadInput_iff.mp ((leavesOut_iff hcons hd).mp hleft).2).1
  rw [hnothing d hd hkind] at hxd
  cases hxd

/-! ### An input that is stranded -/

/-- An image, and a second input of the model that reads it and is read by nobody. -/
def echoedImage : List Node :=
  [{ id := "image", kind := .input, outputs := ["a"], outputShapes := [⟨[1, 1, 1], .channelRowColumn⟩] },
   { id := "echo", kind := .input, inputs := ["a"], outputs := ["b"],
     outputShapes := [⟨[1, 1, 1], .channelRowColumn⟩] }]

/-- The second input is left out, and the image stays with nobody to read it. -/
theorem scheduled_inputs_echoedImage : (Model.mk echoedImage []).Reachable ∧
    (schedule ⟨echoedImage, []⟩).order.map Node.id = ["image"] ∧
    ¬(schedule ⟨echoedImage, []⟩).ReadsInputs := by
  have hreach : (Model.mk echoedImage []).Reachable :=
    Model.reachable_of_consistent ⟨by decide, by decide, by decide, by decide⟩
  have horder : (schedule ⟨echoedImage, []⟩).order = [echoedImage[0]] := by cbv
  have hdropped : (schedule ⟨echoedImage, []⟩).dropped = [⟨"echo", .input, .deadInput⟩] := by cbv
  refine ⟨hreach, by rw [horder]; rfl, ?_⟩
  rw [schedule, (scheduled_inputs_read_iff _ hreach _).1, not_not, ← schedule]
  refine ⟨echoedImage[0], ?_, rfl, ⟨echoedImage[1], List.getElem_mem _, ?_, "a", ?_, ?_⟩, ?_⟩
  · rw [horder]
    exact List.mem_singleton_self _
  · rw [Schedule.LeavesOut, hdropped]
    exact List.mem_singleton_self _
  · exact List.mem_singleton_self _
  · exact List.mem_singleton_self _
  · rw [horder]
    rintro k hk ⟨x, _, hx⟩
    rw [List.mem_singleton.mp hk] at hx
    cases hx

end NetLowering
