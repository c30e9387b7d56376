import Mathlib
import NetLowering.Proofs.Propagation
import NetLowering.Proofs.Standard

/-! # Paddings in strict mode

In strict mode all readers of a value require one padding, and the plan node that owns the value is
written with it: `strict_plan_meets_inputPadding`. The requirement of a reader travels to the producer
through nodes that are transparent, while the owner of the producer's output travels back to the reader
through nodes that emit nothing; the induction along the order shows that the two meet. -/

namespace NetLowering

/-- A buffer with one border will do for another: they have the same size, and the same filling if there
is anything to fill. -/
def Padding.Meets (written asked : Padding) : Prop :=
  written.size = asked.size ∧ (0 < asked.size → written.scheme = asked.scheme)

theorem Padding.Meets.refl (p : Padding) : p.Meets p := ⟨rfl, fun _ => rfl⟩

theorem Node.borderWritten_meets (n : Node) {expected : Padding} (h : 0 ≤ expected.size) :
    (n.borderWritten expected).Meets expected := by
  unfold Node.borderWritten
  split
  · rename_i hinput
    have hzero : expected.size = 0 := Int64.le_antisymm (Int64.not_lt.mp hinput.2) h
    exact ⟨hzero.symm, fun hpos => absurd hpos hinput.2⟩
  · exact Padding.Meets.refl expected

section delivery
variable {o : Options} {m : Model} {p : Plan} {paddings : Propagation} {start final : Run}

/-- The owner of the node's output is written with the padding its readers require, if they require
any. -/
def Delivers (m : Model) (paddings : Propagation) (t : Ownership) (n : Node) : Prop :=
  ∀ required, m.requirements n = some required → required ≠ [] →
    0 ≤ (paddings.outputPadding n.id).size → ∀ x ∈ n.outputs, ∃ q, t.owner? x = some q ∧
      q.primitive.output.padding.Meets (paddings.outputPadding n.id)

theorem outputs_eq_singleton {n : Node} (hone : n.outputs.length ≤ 1) {x : String}
    (hx : x ∈ n.outputs) : n.outputs = [x] := by
  cases houts : n.outputs with
  | nil => rw [houts] at hx; cases hx
  | cons y rest =>
      rw [houts, List.length_cons] at hone
      have hrest : rest = [] := List.eq_nil_of_length_eq_zero (by omega)
      rw [houts, hrest] at hx
      rw [hrest, List.mem_singleton.mp hx]

/-- A node of the order is settled: it is not cyclic, and all its readers require what it writes. -/
theorem Planned.settled (hm : m.Consistent) (hp : Planned o m p paddings start final)
    (hstrict : o.strictPadding = true) {n : Node} (hn : n ∈ p.order) :
    ∃ required, m.requirements n = some required ∧
      paddings.outputPadding n.id = required.head?.getD .absent ∧
      ∀ q ∈ required, q = paddings.outputPadding n.id := by
  rw [hp.order] at hn
  obtain ⟨hmem, _, hkept⟩ := mem_of_mem_order hn
  rcases propagate_settles hm hp.propagated hmem with ⟨_, hcyclic⟩ | ⟨required, hreq, _, hout, hsame⟩
  · rw [hkept] at hcyclic; cases hcyclic
  · refine ⟨required, hreq, hout, fun q hq => ?_⟩
    rw [hout]
    exact hsame hstrict q hq

/-- A transparent node that emits nothing hands on the requirement of its readers. -/
theorem Delivers.through (hm : m.Consistent) (hone : ∀ n ∈ m.nodes, n.outputs.length ≤ 1)
    (hp : Planned o m p paddings start final) (hstrict : o.strictPadding = true) {k n : Node}
    (hk : k ∈ p.order) (hn : n ∈ p.order) (hdeliv : Delivers m paddings p.table k)
    (htrans : n.kind.isTransparent = true) {x : String} (hxk : x ∈ k.outputs) (hxn : x ∈ n.inputs)
    {required : List Padding} (hreq : m.requirements n = some required) (hne : required ≠ [])
    (hnonneg : 0 ≤ (paddings.outputPadding n.id).size) :
    ∃ q, p.table.owner? x = some q ∧
      q.primitive.output.padding.Meets (paddings.outputPadding n.id) := by
  obtain ⟨asked, hasked, _, hall⟩ := hp.settled hm hstrict hk
  have hreader : n ∈ m.readers k :=
    Model.mem_readers_of_outputs (outputs_eq_singleton (hone k (hp.mem_nodes hk)) hxk) (hp.mem_nodes hn)
      hxn
  obtain ⟨forwarded, hforwarded, hhead⟩ := Model.head_mem_requirements hasked hreader htrans
  rw [hreq] at hforwarded
  cases hforwarded
  obtain ⟨required', hreq', hout, _⟩ := hp.settled hm hstrict hn
  rw [hreq] at hreq'
  cases hreq'
  obtain ⟨first, rest, rfl⟩ := List.exists_cons_of_ne_nil hne
  have hfirst : first ∈ asked := hhead first rfl
  -- both write the first requirement of the readers of the transparent node
  have hsame : paddings.outputPadding n.id = paddings.outputPadding k.id :=
    hout.trans (hall first hfirst)
  rw [hsame] at hnonneg ⊢
  exact hdeliv asked hasked (List.ne_nil_of_mem hfirst) hnonneg x hxk

theorem Planned.delivers (hm : m.Consistent) (hone : ∀ n ∈ m.nodes, n.outputs.length ≤ 1)
    (hreg : o.registry = .standard) (hstrict : o.strictPadding = true)
    (hp : Planned o m p paddings start final) : ∀ n ∈ p.order, Delivers m paddings p.table n := by
  refine forall_mem_of_before fun pre n post hsplit hbefore => ?_
  intro required hreq hne hnonneg x hx
  obtain ⟨before, after, hs⟩ := hp.stage hm hsplit
  obtain ⟨sent, owner, hl, hcases⟩ := lowerNode_standard hreg hs.lowered
  refine ⟨owner, (hs.lowering hl).2 x hx, ?_⟩
  rcases hcases with hexpanded | ⟨_, helided⟩
  · rw [hexpanded.border]
    exact n.borderWritten_meets hnonneg
  · rcases helided.border with htrans | hborder
    · obtain ⟨y, hy, howner⟩ := helided.first
      obtain ⟨k, hk, hyk⟩ := (hs.owned y).mp ⟨owner, howner⟩
      have hmem (l : Node) (hl : l ∈ pre ++ n :: post) : l ∈ p.order := hsplit ▸ hl
      obtain ⟨q, hq, hmeets⟩ := Delivers.through hm hone hp hstrict
        (hmem k (List.mem_append_left _ hk)) (hmem n (by simp)) (hbefore k hk) htrans hyk
        (List.mem_of_mem_head? hy) hreq hne hnonneg
      rw [hs.kept y owner howner] at hq
      cases hq
      exact hmeets
    · rw [hborder]
      exact Padding.Meets.refl _

end delivery

/-- In strict mode, and with the standard registry, every scheduled node that is not transparent reads
all its inputs with the padding it expects. -/
theorem strict_plan_meets_inputPadding (o : Options) (name : String) (m : Model) (p : Plan)
    (hm : m.Reachable) (hone : ∀ n ∈ m.nodes, n.outputs.length ≤ 1) (hstrict : o.strictPadding = true)
    (hreg : o.registry = .standard) (h : plan o name m = .ok p) :
    ∀ c ∈ p.order, c.kind.isTransparent = false → ∀ x ∈ c.inputs, ∃ q, p.table.owner? x = some q ∧
      q.primitive.output.padding.Meets c.inputPadding := by
  intro c hc htrans x hx
  have hcons := hm.consistent
  obtain ⟨paddings, start, final, hp⟩ := plan_eq_ok h
  obtain ⟨pre, post, hsplit⟩ := List.append_of_mem hc
  obtain ⟨k, hk, hxk⟩ := closedOrder_of_single hcons hone pre c post (hp.order.symm.trans hsplit) x hx
  have hko : k ∈ p.order := by rw [hsplit]; exact List.mem_append_left _ hk
  obtain ⟨required, hreq, _, hall⟩ := hp.settled hcons hstrict hko
  have hreader : c ∈ m.readers k := Model.mem_readers_of_outputs
    (outputs_eq_singleton (hone k (hp.mem_nodes hko)) hxk) (hp.mem_nodes hc) hx
  have hskip : c.kind ≠ .skip := by
    rw [hp.order] at hc
    exact (mem_of_mem_order hc).2.1
  have hasked := Model.inputPadding_mem_requirementsOf hreq hreader hskip htrans
  have hnonneg := hcons.padding_nonneg c (hp.mem_nodes hc)
  rw [hall _ hasked] at hnonneg ⊢
  exact hp.delivers hcons hone hreg hstrict k hko required hreq (List.ne_nil_of_mem hasked) hnonneg x hxk

/-! ### A requirement that goes a long way -/

/-- An input that is read with a border, behind two nodes that emit nothing. -/
def aliasedImage : List Node :=
  [{ id := "image", kind := .input, outputs := ["x"],
     outputShapes := [⟨[4, 4, 3], .rowColumnChannel⟩] },
   { id := "alias", kind := .passthrough, inputs := ["x"], outputs := ["y"] },
   { id := "joined", kind := .splice, inputs := ["y"], outputs := ["z"] },
   { id := "relu", kind := .relu, inputs := ["z"], outputs := ["out"], inputPadding := ⟨1, .min⟩ }]

def strictOptions : Options := ⟨.standard, true, ⟨0⟩, ⟨0⟩⟩

theorem strict_plan_aliasedImage : ∃ p, plan strictOptions "net" ⟨aliasedImage, []⟩ = .ok p ∧
    p.order = aliasedImage ∧ ∀ c ∈ aliasedImage, c.kind.isTransparent = false → ∀ x ∈ c.inputs,
      ∃ q, p.table.owner? x = some q ∧ q.primitive.output.padding.Meets c.inputPadding := by
  have hreach : (Model.mk aliasedImage []).Reachable :=
    Model.reachable_of_consistent ⟨by decide, by decide, by decide, by decide⟩
  obtain ⟨p, hplan, horder⟩ : ∃ p, plan strictOptions "net" ⟨aliasedImage, []⟩ = .ok p ∧
      p.order = aliasedImage := exists_plan_of_order (by cbv) (List.cons_ne_nil _ _)
  refine ⟨p, hplan, horder, ?_⟩
  rw [← horder]
  exact strict_plan_meets_inputPadding strictOptions "net" _ p hreach (by decide) rfl rfl hplan

end NetLowering
