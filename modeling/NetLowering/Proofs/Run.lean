import NetLowering.Proofs.Block
import NetLowering.Proofs.Schedule

/-! # Running a plan

A plan is made by lowering the nodes of the schedule one after the other (`Planned`). For a node of the
order, `Stage` describes the moment when its turn comes: the values that have an owner are the outputs
of the nodes before it, and these owners are the ones the finished plan has, as are those of its own
outputs once it is lowered. Both come from two facts, that a node is lowered once and that no two nodes
share an output, and hold with any registry. -/

namespace NetLowering

/-! ### Failures -/

theorem Registry.lookup_eq_error {g : Registry} {kind : OpKind} {e : Error}
    (h : g.lookup kind = .error e) : e = .of (.noConverter kind) := by
  unfold lookup at h
  split at h
  · cases h
  · cases h; rfl

section failures
variable (c : Context)

theorem canConvert_ends (cv : Converter) (n : Node) :
    Ends (cv.canConvert n) (fun _ => True) c.Foreseen := by
  unfold Converter.canConvert
  split
  · split <;> exact trivial
  · split <;> exact trivial
  · exact trivial

theorem applicable_ends (block : Block) :
    Ends (Block.applicable c block) (fun _ => True) c.Foreseen := by
  induction block with
  | nil => exact trivial
  | cons cv rest ih =>
      refine (canConvert_ends c cv c.node).bind fun able _ => ?_
      exact ih.bind fun others _ => trivial

variable {c}

theorem BlockRun.Tracks.foreseen {s : BlockRun} {sent : List PlanNode} (hs : Tracks c s sent)
    {e : Element} {k : Cause} (hk : (s.here c e).Foreseen k) : c.Foreseen k := by
  cases k with
  | inputNotOwned x =>
      refine ⟨hk.1, ?_⟩
      cases howner : c.table.owner? x with
      | none => rfl
      | some q =>
          obtain ⟨q', hq'⟩ := hs.owner_isSome howner
          exact absurd (hk.2.symm.trans hq') (by simp)
  | nothingProduced | noConverter => exact hk
  | _ => exact trivial

variable {o : Options} {m : Model} {paddings : Propagation} {r : Run} {n : Node} {halt : Halt}

/-- A failure names the node it is about: its kind has no block, or a converter failed for a cause it may
have, or its block came to nothing. -/
theorem lowerNode_eq_error (h : r.lowerNode o m paddings n = .error halt) :
    halt.error.node? = some (n.id, n.kind) ∧
      ((∀ block, o.registry.lookup n.kind ≠ .ok block) ∧ halt.error.cause = .noConverter n.kind ∨
      (r.context o m paddings n).Foreseen halt.error.cause ∨
      ∃ listed block s, o.registry.lookup n.kind = .ok listed ∧
        Block.applicable (r.context o m paddings n) listed = .ok block ∧
        (Block.elements false block).foldlM (BlockRun.step (r.context o m paddings n)) { run := r } =
          .ok s ∧ s.previous = none ∧ s.forwarded = none ∧ halt.error.cause = .nothingProduced) := by
  unfold Run.lowerNode at h
  dsimp only at h
  cases hblock : o.registry.lookup n.kind >>= Block.applicable (r.context o m paddings n) with
  | error e =>
      rw [hblock] at h
      cases h
      cases hlookup : o.registry.lookup n.kind with
      | error e' =>
          rw [hlookup] at hblock
          cases hblock
          exact ⟨rfl, .inl ⟨nofun, congrArg Error.cause (Registry.lookup_eq_error hlookup)⟩⟩
      | ok listed =>
          rw [hlookup] at hblock
          have hcause := (applicable_ends (r.context o m paddings n) listed).cause hblock
          exact ⟨rfl, .inr (.inl hcause)⟩
  | ok block =>
      rw [hblock] at h
      dsimp only at h
      cases hfold : (Block.elements false block).foldlM
          (BlockRun.step (r.context o m paddings n)) { run := r } with
      | error halt' =>
          rw [hfold] at h
          cases h
          obtain ⟨pre, e, _, s, _, hpre, hstep⟩ := foldlM_eq_error hfold
          obtain ⟨sent, hs⟩ := BlockRun.tracks_foldlM ⟨[], BlockRun.tracks_start rfl⟩ hpre
          obtain ⟨err, hconv, hcause, hnode⟩ := BlockRun.step_eq_error hstep
          rw [hcause]
          exact ⟨hnode, .inr (.inl (hs.foreseen ((Action.convert_sound _ _).cause hconv)))⟩
      | ok s =>
          rw [hfold] at h
          obtain ⟨listed, hlookup, happ⟩ := bind_eq_ok_iff.mp hblock
          change s.finish n = .error halt at h
          unfold BlockRun.finish at h
          cases hprev : s.previous with
          | some p => rw [hprev] at h; cases h
          | none =>
              rw [hprev] at h
              cases hf : s.forwarded with
              | some q => rw [hf] at h; cases h
              | none =>
                  rw [hf] at h
                  cases h
                  exact ⟨rfl, .inr (.inr ⟨listed, block, s, hlookup, happ, hfold, hprev, hf, rfl⟩)⟩

end failures

/-! ### Nodes in sequence -/

section frames
variable {o : Options} {m : Model} {paddings : Propagation} {r r' : Run} {nodes : List Node}

theorem Lowered.emitted {t t' : Ownership} {n : Node} {sent : List PlanNode} {owner : PlanNode}
    (h : Lowered t n t' sent owner) (id : String) :
    t'.emitted id = t.emitted id ++ if n.id = id then sent else [] := by
  unfold Ownership.emitted
  rw [h.emissions, List.filter_append, List.map_append]
  congr 1
  by_cases hid : n.id = id
  · have hall : (sent.map (Emission.mk n)).filter (fun e => e.origin.id = id) =
        sent.map (Emission.mk n) := by
      rw [List.filter_eq_self]
      intro e he
      obtain ⟨p, _, rfl⟩ := List.mem_map.mp he
      simpa using hid
    rw [hall, if_pos hid, List.map_map]
    exact List.map_id sent
  · have hnone : (sent.map (Emission.mk n)).filter (fun e => e.origin.id = id) = [] := by
      rw [List.filter_eq_nil_iff]
      intro e he
      obtain ⟨p, _, rfl⟩ := List.mem_map.mp he
      simpa using hid
    rw [hnone, if_neg hid]
    rfl

theorem owner?_frame {x : String} (hx : ∀ k ∈ nodes, x ∉ k.outputs)
    (h : nodes.foldlM (Run.lowerNode o m paddings) r = .ok r') :
    r'.table.owner? x = r.table.owner? x := by
  refine foldlM_keeps (I := fun s => s.table.owner? x = r.table.owner? x) ?_ rfl h
  intro k hk s s' hs hstep
  obtain ⟨sent, owner, hl⟩ := lowerNode_lowered hstep
  rw [hl.owner_eq, if_neg (hx k hk), hs]

theorem emitted_frame {id : String} (hid : ∀ k ∈ nodes, k.id ≠ id)
    (h : nodes.foldlM (Run.lowerNode o m paddings) r = .ok r') :
    r'.table.emitted id = r.table.emitted id := by
  refine foldlM_keeps (I := fun s => s.table.emitted id = r.table.emitted id) ?_ rfl h
  intro k hk s s' hs hstep
  obtain ⟨sent, owner, hl⟩ := lowerNode_lowered hstep
  rw [hl.emitted, if_neg (hid k hk), List.append_nil, hs]

/-- Lowering nodes gives an owner to their outputs, and to no other value. -/
theorem owned_iff (h : nodes.foldlM (Run.lowerNode o m paddings) r = .ok r') (x : String) :
    (∃ q, r'.table.owner? x = some q) ↔
      (∃ q, r.table.owner? x = some q) ∨ ∃ k ∈ nodes, x ∈ k.outputs := by
  induction nodes generalizing r with
  | nil => cases h; simp
  | cons n rest ih =>
      rw [List.foldlM_cons, bind_eq_ok_iff] at h
      obtain ⟨r₁, hn, h⟩ := h
      obtain ⟨sent, owner, hl⟩ := lowerNode_lowered hn
      rw [ih h, hl.owner_eq x]
      by_cases hx : x ∈ n.outputs
      · simp [hx]
      · simp [hx]

end frames

/-! ### Plans -/

/-- How a plan comes about: the order is a schedule, and the table is what lowering it leaves. -/
structure Planned (o : Options) (m : Model) (p : Plan) (paddings : Propagation) (start final : Run) :
    Prop where
  propagated : propagate o.strictPadding m = .ok paddings
  order : p.order = (scheduleWithout m paddings.isCyclic).order
  empty : start.table = {}
  run : p.order.foldlM (Run.lowerNode o m paddings) start = .ok final
  table : p.table = final.table

section plans
variable {o : Options} {m : Model} {name : String}

theorem plan_parts {p : Plan} (h : plan o name m = .ok p) :
    ∃ paddings start final, Planned o m p paddings start final ∧ p.order ≠ [] ∧
      p.dropped = paddings.dropped ++ (scheduleWithout m paddings.isCyclic).dropped ∧
      p.outputs = Plan.outputsOf p.order p.table := by
  unfold plan at h
  cases ht : planTraced o name m with
  | error halt => rw [ht] at h; cases h
  | ok result =>
      rw [ht] at h
      cases h
      unfold planTraced at ht
      cases hpad : propagate o.strictPadding m with
      | error e => rw [hpad] at ht; cases ht
      | ok paddings =>
          rw [hpad] at ht
          dsimp only at ht
          split at ht
          · cases ht
          · rename_i hne
            obtain ⟨final, hrun, hresult⟩ := bind_eq_ok_iff.mp ht
            cases hresult
            exact ⟨paddings, _, final, ⟨hpad, rfl, rfl, hrun, rfl⟩, by simpa using hne, rfl, rfl⟩

theorem plan_eq_ok {p : Plan} (h : plan o name m = .ok p) :
    ∃ paddings start final, Planned o m p paddings start final := by
  obtain ⟨paddings, start, final, hp, _⟩ := plan_parts h
  exact ⟨paddings, start, final, hp⟩

/-- There is a plan if the nodes of the schedule can be lowered, whatever the record says. -/
theorem exists_plan (name : String) {paddings : Propagation} {P : Ownership → Prop}
    (hpad : propagate o.strictPadding m = .ok paddings)
    (hne : (scheduleWithout m paddings.isCyclic).order ≠ [])
    (hrun : ∀ start : Run, start.table = {} → ∃ final,
      (scheduleWithout m paddings.isCyclic).order.foldlM (Run.lowerNode o m paddings) start = .ok final ∧
        P final.table) :
    ∃ p, plan o name m = .ok p ∧ p.order = (scheduleWithout m paddings.isCyclic).order ∧
      p.dropped = paddings.dropped ++ (scheduleWithout m paddings.isCyclic).dropped ∧ P p.table ∧
      p.outputs = Plan.outputsOf p.order p.table := by
  obtain ⟨final, hfinal, htable⟩ := hrun ⟨{}, Trace.note
    ⟨openingEvents paddings (paddings.dropped ++ (scheduleWithout m paddings.isCyclic).dropped), []⟩
    (.ordered (scheduleWithout m paddings.isCyclic).order)⟩ rfl
  unfold plan planTraced
  rw [hpad]
  dsimp only
  rw [if_neg (by simpa using hne)]
  rw [hfinal]
  exact ⟨_, rfl, rfl, rfl, htable, rfl⟩

/-- There is no plan if a node of the schedule fails once those before it are lowered. -/
theorem exists_error (name : String) {paddings : Propagation} {pre post : List Node} {n : Node}
    {P : Cause → Prop} (hpad : propagate o.strictPadding m = .ok paddings)
    (horder : (scheduleWithout m paddings.isCyclic).order = pre ++ n :: post)
    (hrun : ∀ start : Run, start.table = {} → ∃ r halt,
      pre.foldlM (Run.lowerNode o m paddings) start = .ok r ∧
        r.lowerNode o m paddings n = .error halt ∧ P halt.error.cause) :
    ∃ e, plan o name m = .error e ∧ P e.cause := by
  obtain ⟨r, halt, hpre, hn, hcause⟩ := hrun ⟨{}, Trace.note
    ⟨openingEvents paddings (paddings.dropped ++ (scheduleWithout m paddings.isCyclic).dropped), []⟩
    (.ordered (scheduleWithout m paddings.isCyclic).order)⟩ rfl
  have hfail : (pre ++ n :: post).foldlM (Run.lowerNode o m paddings) _ = .error halt :=
    foldlM_append_cons_of_error hpre hn
  refine ⟨halt.error, ?_, hcause⟩
  rw [← horder] at hfail
  unfold plan planTraced
  rw [hpad]
  dsimp only
  rw [if_neg (by rw [horder]; simp), hfail]
  rfl

/-- A plan fails because the paddings do, because nothing is scheduled, or because a node of the
schedule does. -/
theorem plan_eq_error {e : Error} (h : plan o name m = .error e) :
    propagate o.strictPadding m = .error e ∨ e.cause = .nothingScheduled name m.nodes.length ∨
      ∃ paddings pre n post, ∃ start r : Run, ∃ halt, propagate o.strictPadding m = .ok paddings ∧
        (scheduleWithout m paddings.isCyclic).order = pre ++ n :: post ∧ start.table = {} ∧
        pre.foldlM (Run.lowerNode o m paddings) start = .ok r ∧
        r.lowerNode o m paddings n = .error halt ∧ e = halt.error := by
  unfold plan at h
  cases ht : planTraced o name m with
  | ok result => rw [ht] at h; cases h
  | error halt =>
      rw [ht] at h
      cases h
      unfold planTraced at ht
      cases hpad : propagate o.strictPadding m with
      | error e => rw [hpad] at ht; cases ht; exact .inl rfl
      | ok paddings =>
          rw [hpad] at ht
          dsimp only at ht
          split at ht
          · cases ht; exact .inr (.inl rfl)
          · refine .inr (.inr ?_)
            cases hrun : (scheduleWithout m paddings.isCyclic).order.foldlM
                (Run.lowerNode o m paddings) _ with
            | ok final => rw [hrun] at ht; cases ht
            | error halt' =>
                rw [hrun] at ht
                cases ht
                obtain ⟨pre, n, post, r, horder, hpre, hn⟩ := foldlM_eq_error hrun
                exact ⟨paddings, pre, n, post, _, r, halt, rfl, horder, rfl, hpre, hn, rfl⟩

theorem exists_plan_of_order {order : List Node}
    (h : (match plan o name m with | .ok p => p.order | .error _ => []) = order) (hne : order ≠ []) :
    ∃ p, plan o name m = .ok p ∧ p.order = order := by
  cases hplan : plan o name m with
  | error e => rw [hplan] at h; exact absurd h.symm hne
  | ok p => rw [hplan] at h; exact ⟨p, rfl, h⟩

theorem exists_plan_of_view {α : Type} {view : Plan → α} {x : α}
    (h : (plan o name m).toOption.map view = some x) : ∃ p, plan o name m = .ok p ∧ view p = x := by
  cases hplan : plan o name m with
  | error e => rw [hplan] at h; cases h
  | ok p => rw [hplan] at h; exact ⟨p, rfl, Option.some.inj h⟩

end plans

/-! ### The turn of a node -/

/-- The turn of a node in a plan, after the nodes `pre`: `before` and `after` are the states it is
lowered from and to. -/
structure Stage (o : Options) (m : Model) (paddings : Propagation) (p : Plan) (pre : List Node)
    (n : Node) (before after : Run) : Prop where
  lowered : before.lowerNode o m paddings n = .ok after
  owned : ∀ x, (∃ q, before.table.owner? x = some q) ↔ ∃ k ∈ pre, x ∈ k.outputs
  kept : ∀ x q, before.table.owner? x = some q → p.table.owner? x = some q
  outputs : ∀ x ∈ n.outputs, p.table.owner? x = after.table.owner? x
  fresh : before.table.emitted n.id = []
  emitted : p.table.emitted n.id = after.table.emitted n.id

section stages
variable {o : Options} {m : Model} {p : Plan} {paddings : Propagation} {start final : Run}

theorem Planned.mem_nodes (hp : Planned o m p paddings start final) {n : Node} (hn : n ∈ p.order) :
    n ∈ m.nodes := by
  rw [hp.order] at hn
  exact (mem_of_mem_order hn).1

theorem Planned.apart (hm : m.Consistent) (hp : Planned o m p paddings start final)
    {xs ys : List Node} (hsplit : p.order = xs ++ ys) {a b : Node} (ha : a ∈ xs) (hb : b ∈ ys) :
    a.id ≠ b.id ∧ ∀ x ∈ a.outputs, x ∉ b.outputs := by
  have hids := order_ids_nodup hm paddings.isCyclic
  rw [← hp.order, hsplit, List.map_append, List.nodup_append] at hids
  have hne : a.id ≠ b.id :=
    hids.2.2 _ (List.mem_map_of_mem ha) _ (List.mem_map_of_mem hb)
  have hmem (k : Node) (hk : k ∈ xs ++ ys) : k ∈ m.nodes := hp.mem_nodes (hsplit ▸ hk)
  refine ⟨hne, fun x hxa hxb => hne ?_⟩
  rw [hm.eq_of_mem_outputs (hmem a (List.mem_append_left _ ha)) (hmem b (List.mem_append_right _ hb))
    hxa hxb]

theorem Planned.stage_of_run (hm : m.Consistent) (hp : Planned o m p paddings start final)
    {pre post : List Node} {n : Node} (hsplit : p.order = pre ++ n :: post) {before after : Run}
    (hpre : pre.foldlM (Run.lowerNode o m paddings) start = .ok before)
    (hn : before.lowerNode o m paddings n = .ok after)
    (hpost : post.foldlM (Run.lowerNode o m paddings) after = .ok final) :
    Stage o m paddings p pre n before after := by
  have hlater : p.order = (pre ++ [n]) ++ post := by rw [hsplit, List.append_assoc]; rfl
  have hn' : n ∈ pre ++ [n] := List.mem_append_right _ (List.mem_singleton_self n)
  have howned : ∀ x, (∃ q, before.table.owner? x = some q) ↔ ∃ k ∈ pre, x ∈ k.outputs := by
    intro x
    rw [owned_iff hpre x, hp.empty]
    simp [Ownership.owner?]
  refine ⟨hn, howned, ?_, ?_, ?_, ?_⟩
  · intro x q hq
    obtain ⟨k, hk, hx⟩ := (howned x).mp ⟨q, hq⟩
    have hrest : (n :: post).foldlM (Run.lowerNode o m paddings) before = .ok final := by
      rw [List.foldlM_cons, hn]; exact hpost
    rw [hp.table, owner?_frame (fun l hl => (hp.apart hm hsplit hk hl).2 x hx) hrest, hq]
  · intro x hx
    rw [hp.table, owner?_frame (fun l hl => (hp.apart hm hlater hn' hl).2 x hx) hpost]
  · rw [emitted_frame (fun k hk => (hp.apart hm hsplit hk List.mem_cons_self).1) hpre, hp.empty]
    rfl
  · rw [hp.table, emitted_frame (fun l hl => (hp.apart hm hlater hn' hl).1.symm) hpost]

theorem Planned.stage (hm : m.Consistent) (hp : Planned o m p paddings start final)
    {pre post : List Node} {n : Node} (hsplit : p.order = pre ++ n :: post) :
    ∃ before after, Stage o m paddings p pre n before after := by
  have hrun := hp.run
  rw [hsplit] at hrun
  obtain ⟨before, after, hpre, hn, hpost⟩ := foldlM_append_cons_eq_ok hrun
  exact ⟨before, after, hp.stage_of_run hm hsplit hpre hn hpost⟩

/-- What a node emitted is what its block emitted, and its outputs belong to the block's owner. -/
theorem Stage.lowering {pre : List Node} {n : Node} {before after : Run}
    (hs : Stage o m paddings p pre n before after) {sent : List PlanNode} {owner : PlanNode}
    (hl : Lowered before.table n after.table sent owner) :
    p.table.emitted n.id = sent ∧ ∀ x ∈ n.outputs, p.table.owner? x = some owner := by
  constructor
  · rw [hs.emitted, hl.emitted, hs.fresh, if_pos rfl, List.nil_append]
  · intro x hx
    rw [hs.outputs x hx, hl.owner_eq, if_pos hx]

end stages

end NetLowering
