import NetLowering.Proofs.Propagation
import NetLowering.Proofs.Run

/-! # When every input is there

A schedule in closed order is what lowering needs: when the turn of a node comes, each of its inputs has
an owner, so that no converter of any registry finds an input without one
(`schedule_closed_iff_no_lost_input`). Whether the order is closed comes down to one rule, by which an
input of the model is left out for its first output alone; `splitImage` is an input that this rule
leaves out while its second output is read. -/

namespace NetLowering

/-- The failure of a node whose inputs are outputs of nodes lowered before is not that one of them has
no owner. -/
theorem lowerNode_cause_ne_inputNotOwned {o : Options} {m : Model} {paddings : Propagation}
    {pre : List Node} {n : Node} {start r : Run} {halt : Halt}
    (hpre : pre.foldlM (Run.lowerNode o m paddings) start = .ok r)
    (hbefore : ∀ x ∈ n.inputs, ∃ k ∈ pre, x ∈ k.outputs)
    (h : r.lowerNode o m paddings n = .error halt) (x : String) :
    halt.error.cause ≠ .inputNotOwned x := by
  intro hcause
  rcases (lowerNode_eq_error h).2 with ⟨_, hkind⟩ | hforeseen | ⟨_, _, _, _, _, _, _, _, hnothing⟩
  · rw [hcause] at hkind
    cases hkind
  · rw [hcause] at hforeseen
    obtain ⟨q, hq⟩ := (owned_iff hpre x).mpr (.inr (hbefore x hforeseen.1))
    exact absurd (hforeseen.2.symm.trans hq) (by simp)
  · rw [hcause] at hnothing
    cases hnothing

/-- The order of a model's schedule is closed iff no input was left out while a scheduled node reads one
of its later outputs, whichever nodes are excluded; and if none was, no run fails because an input of a
node has no owner, whatever its registry. -/
theorem schedule_closed_iff_no_lost_input (m : Model) (hm : m.Reachable) :
    (∀ excluded, ClosedOrder (scheduleWithout m excluded).order ↔
      ¬ (scheduleWithout m excluded).LosesInput m) ∧
    ∀ o name paddings e, propagate o.strictPadding m = .ok paddings →
      ¬ (scheduleWithout m paddings.isCyclic).LosesInput m →
      plan o name m = .error e → ∀ x, e.cause ≠ .inputNotOwned x := by
  refine ⟨fun excluded => closedOrder_iff hm.consistent, ?_⟩
  intro o name paddings e hpad hkeeps h x
  rcases plan_eq_error h with herr | hnone | ⟨paddings', pre, n, post, start, r, halt, hpad', horder, _,
    hpre, hn, rfl⟩
  · rw [hpad] at herr; cases herr
  · rw [hnone]; exact nofun
  · rw [hpad] at hpad'
    cases hpad'
    have hclosed := (closedOrder_iff hm.consistent).mpr hkeeps
    exact lowerNode_cause_ne_inputNotOwned hpre (hclosed pre n post horder) hn x

/-! ### An input that is lost -/

/-- An input with two outputs. -/
def splitImage : Node :=
  { id := "image", kind := .input, outputs := ["left", "right"],
    outputShapes := [⟨[1, 1, 1], .channelRowColumn⟩] }

/-- A reader of the second output of `splitImage`. -/
def rightReader : Node := { id := "relu", kind := .relu, inputs := ["right"], outputs := ["y"] }

theorem reachable_splitImage : (Model.mk [splitImage, rightReader] []).Reachable :=
  Model.reachable_of_consistent ⟨by decide, by decide, by decide, by decide⟩

/-- The input is left out, and what is left of the schedule is not closed. -/
theorem schedule_splitImage_not_closed :
    (Model.mk [splitImage, rightReader] []).Reachable ∧
      ¬ ClosedOrder (scheduleWithout ⟨[splitImage, rightReader], []⟩ fun _ => false).order := by
  have horder : (scheduleWithout ⟨[splitImage, rightReader], []⟩ fun _ => false).order =
      [rightReader] := by cbv
  have hdropped : (scheduleWithout ⟨[splitImage, rightReader], []⟩ fun _ => false).dropped =
      [⟨"image", .input, .deadInput⟩] := by cbv
  refine ⟨reachable_splitImage, ?_⟩
  rw [(schedule_closed_iff_no_lost_input _ reachable_splitImage).1, not_not]
  refine ⟨splitImage, List.mem_cons_self, ?_, "right", by decide, rightReader, ?_, by decide⟩
  · rw [Schedule.LeavesOut, hdropped]
    exact List.mem_singleton_self _
  · rw [horder]
    exact List.mem_singleton_self _

end NetLowering
