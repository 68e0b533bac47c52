import ToyDfba.Lib.Positions
import ToyDfba.Proofs.Steps
import ToyDfba.Spec.Placement

/-! Placement, one request at a time and in loops. The ids that a queue receives count up
from the clock's seconds plus the length of the queue. -/

namespace ToyDfba

@[simp] theorem requests_nil (t : AuctionType) : requests t [] = 0 := rfl

theorem requests_append (t : AuctionType) (ps qs : List PlaceOrderParams) :
    requests t (ps ++ qs) = requests t ps + requests t qs :=
  List.countP_append

theorem requests_singleton (t : AuctionType) (p : PlaceOrderParams) :
    requests t [p] = if p.queue = t then 1 else 0 := by
  simp [requests, List.countP_cons]

/-- What placing some requests does to the accounts. -/
structure Puts (clock : Clock) (ps : List PlaceOrderParams) (s s' : ProgramState) : Prop where
  auctionState : s'.auctionState = s.auctionState
  queue : ∀ t, ∃ new : List Order,
    s'.queue t = { s.queue t with orders := (s.queue t).orders ++ new } ∧
      new.map (fun o => o.id.val) =
        List.range' ((asU64 clock.unixTimestamp).val + (s.queue t).orders.length) (requests t ps)

section Puts

variable {clock : Clock} {ps qs : List PlaceOrderParams} {p : PlaceOrderParams}
  {s s' s'' : ProgramState}

theorem Puts.refl (clock : Clock) (s : ProgramState) : Puts clock [] s s :=
  ⟨rfl, fun _ => ⟨[], by simp, rfl⟩⟩

theorem Puts.lengthAfter_eq (h : Puts clock ps s s') (qs : List PlaceOrderParams) (t : AuctionType) :
    lengthAfter s' qs t = lengthAfter s (ps ++ qs) t := by
  obtain ⟨new, hqueue, hids⟩ := h.queue t
  have hlength := congrArg List.length hids
  rw [List.length_map, List.length_range'] at hlength
  rw [lengthAfter, lengthAfter, hqueue, requests_append, List.length_append, hlength, Nat.add_assoc]

theorem Puts.maxOrders_eq (h : Puts clock ps s s') (t : AuctionType) :
    (s'.queue t).maxOrders = (s.queue t).maxOrders := by
  obtain ⟨new, hqueue, -⟩ := h.queue t
  rw [hqueue]

theorem Puts.append (h : Puts clock ps s s') (h' : Puts clock qs s' s'') :
    Puts clock (ps ++ qs) s s'' := by
  refine ⟨h'.auctionState.trans h.auctionState, fun t => ?_⟩
  obtain ⟨new, hqueue, hids⟩ := h.queue t
  obtain ⟨new', hqueue', hids'⟩ := h'.queue t
  have hlength := h.lengthAfter_eq [] t
  rw [lengthAfter, lengthAfter, requests_nil, Nat.add_zero, List.append_nil] at hlength
  refine ⟨new ++ new', by rw [hqueue', hqueue, List.append_assoc], ?_⟩
  rw [List.map_append, hids, hids', hlength, requests_append, ← Nat.add_assoc,
    List.range'_append_1]

theorem Puts.full_iff (h : Puts clock ps s s') (qs : List PlaceOrderParams) (p : PlaceOrderParams) :
    Full s' qs p ↔ Full s (ps ++ qs) p := by
  rw [Full, Full, h.lengthAfter_eq, h.maxOrders_eq]

theorem Puts.placeable_iff (h : Puts clock ps s s') (qs : List PlaceOrderParams)
    (p : PlaceOrderParams) : Placeable clock s' qs p ↔ Placeable clock s (ps ++ qs) p := by
  refine ⟨fun hp => ⟨hp.valid, ?_, ?_⟩, fun hp => ⟨hp.valid, ?_, ?_⟩⟩
  · exact mt (h.full_iff qs p).mpr hp.room
  · exact h.lengthAfter_eq qs _ ▸ hp.id
  · exact mt (h.full_iff qs p).mp hp.room
  · exact (h.lengthAfter_eq qs _).symm ▸ hp.id

end Puts

section PlaceOne

variable {signer : Pubkey} {clock : Clock} {s s' : ProgramState} {p : PlaceOrderParams} {e : Event}

theorem placeOne_eq_none_iff :
    placeOne signer clock p s = .ok none ↔ p.Valid ∧ Full s [] p := by
  simp only [placeOne, bind_eq_ok, require_eq_ok]
  refine ⟨?_, ?_⟩
  · intro h
    obtain ⟨-, hvalid, h⟩ := h
    split_ifs at h with hfull
    · exact ⟨hvalid, hfull⟩
    · obtain ⟨orderId, -, h⟩ := bind_eq_ok.mp h
      simp at h
  · intro h
    obtain ⟨hvalid, hfull⟩ := h
    exact ⟨(), hvalid, if_pos hfull⟩

theorem length_lt_of_not_full (h : ¬ Full s [] p) : (s.queue p.queue).orders.length < 2 ^ 64 :=
  (not_le.mp h).trans ((s.queue p.queue).maxOrders.isLt.trans (by decide))

theorem add_length_eq_some {n orderId : U64} (h : ¬ Full s [] p) :
    Checked.add n (Fin.ofNat (2 ^ 64) (s.queue p.queue).orders.length) = some orderId ↔
      n.val + (s.queue p.queue).orders.length = orderId.val := by
  rw [Checked.add_eq_some, Fin.val_ofNat, Nat.mod_eq_of_lt (length_lt_of_not_full h)]

theorem puts_setOrders {o : Order} (hid : (asU64 clock.unixTimestamp).val +
    (s.queue p.queue).orders.length = o.id.val) :
    Puts clock [p] s (s.setOrders p.queue ((s.queue p.queue).orders ++ [o])) := by
  refine ⟨?_, fun t => ?_⟩
  · cases p.queue <;> rfl
  · rw [ProgramState.queue_setOrders, requests_singleton]
    by_cases ht : t = p.queue
    · subst ht
      rw [if_pos rfl, if_pos rfl]
      exact ⟨[o], rfl, by rw [hid]; rfl⟩
    · rw [if_neg ht, if_neg (Ne.symm ht)]
      exact ⟨[], by simp, rfl⟩

theorem placeOne_puts (h : placeOne signer clock p s = .ok (some (s', e))) :
    Placeable clock s [] p ∧ Puts clock [p] s s' := by
  simp only [placeOne, bind_eq_ok, require_eq_ok] at h
  obtain ⟨-, hvalid, h⟩ := h
  split_ifs at h with hfull
  · cases h
  · obtain ⟨orderId, hid, h⟩ := bind_eq_ok.mp h
    have hid := (add_length_eq_some (p := p) hfull).mp (orPanic_eq_ok.mp hid)
    simp only [Except.ok.injEq, Option.some.injEq, Prod.mk.injEq] at h
    obtain ⟨rfl, -⟩ := h
    exact ⟨⟨hvalid, hfull, hid ▸ orderId.isLt⟩, puts_setOrders hid⟩

theorem exists_placeOne_of_placeable (signer : Pubkey) (h : Placeable clock s [] p) :
    ∃ st, placeOne signer clock p s = .ok (some st) := by
  have hid := (add_length_eq_some h.room).mpr (show _ = (⟨_, h.id⟩ : U64).val from rfl)
  simp only [placeOne, bind_eq_ok, require_eq_ok]
  exact ⟨_, (), h.valid, (if_neg h.room).trans (bind_eq_ok.mpr ⟨_, orPanic_eq_ok.mpr hid, rfl⟩)⟩

end PlaceOne

/-- What `placeOne` can come to, by what the request and its queue are like. -/
inductive PlaceStep (clock : Clock) (s : ProgramState) (p : PlaceOrderParams) :
    Except TxError (Option (ProgramState × Event)) → Prop
  | failed (e : TxError) (hnot : ¬ Placeable clock s [] p) (hstop : ¬ (p.Valid ∧ Full s [] p)) :
    PlaceStep clock s p (.error e)
  | full (hvalid : p.Valid) (hfull : Full s [] p) : PlaceStep clock s p (.ok none)
  | placed (s' : ProgramState) (e : Event) (hplaceable : Placeable clock s [] p)
    (hputs : Puts clock [p] s s') : PlaceStep clock s p (.ok (some (s', e)))

theorem placeOne_step (signer : Pubkey) (clock : Clock) (s : ProgramState) (p : PlaceOrderParams) :
    PlaceStep clock s p (placeOne signer clock p s) := by
  cases hres : placeOne signer clock p s with
  | error e =>
    refine .failed e (fun hplaceable => ?_) fun hstop => ?_
    · obtain ⟨st, hst⟩ := exists_placeOne_of_placeable signer hplaceable
      cases hres.symm.trans hst
    · cases hres.symm.trans (placeOne_eq_none_iff.mpr hstop)
  | ok res =>
    cases res with
    | none =>
      obtain ⟨hvalid, hfull⟩ := placeOne_eq_none_iff.mp hres
      exact .full hvalid hfull
    | some st =>
      obtain ⟨hplaceable, hputs⟩ := placeOne_puts hres
      exact .placed st.1 st.2 hplaceable hputs

/-- Put the events of an earlier instruction before those of an outcome. -/
def emitAfter (events : List Event) (out : Outcome) : Outcome := (out.1, events ++ out.2)

section Loop

variable {signer : Pubkey} {clock : Clock} {s s' : ProgramState} {p : PlaceOrderParams}
  {ps taken : List PlaceOrderParams} {events events' : List Event}

theorem allPlaceable_nil (clock : Clock) (s : ProgramState) : AllPlaceable clock s [] :=
  fun _ _ _ he => absurd he Positions.nil_ne_split

theorem allPlaceable_cons_iff (hputs : Puts clock [p] s s') :
    AllPlaceable clock s (p :: ps) ↔ Placeable clock s [] p ∧ AllPlaceable clock s' ps := by
  unfold AllPlaceable
  rw [Positions.forall_split_cons]
  exact and_congr_right fun _ => forall₄_congr fun pre q _ _ => (hputs.placeable_iff pre q).symm

theorem placeable_of_allPlaceable_cons (h : AllPlaceable clock s (p :: ps)) : Placeable clock s [] p :=
  h [] p ps rfl

theorem takes_cons_iff (hplaceable : Placeable clock s [] p) (hputs : Puts clock [p] s s') :
    Takes clock s (p :: ps) (p :: taken) ↔ Takes clock s' ps taken := by
  refine ⟨fun h => ⟨((allPlaceable_cons_iff hputs).mp h.placeable).2, ?_⟩,
    fun h => ⟨(allPlaceable_cons_iff hputs).mpr ⟨hplaceable, h.placeable⟩, ?_⟩⟩
  · refine h.stop.imp (fun he => (List.cons.inj he).2) fun hstop => ?_
    obtain ⟨q, rest, he, hvalid, hfull⟩ := hstop
    exact ⟨q, rest, (List.cons.inj he).2, hvalid, (hputs.full_iff taken q).mpr hfull⟩
  · refine h.stop.imp (fun he => by rw [he]) fun hstop => ?_
    obtain ⟨q, rest, he, hvalid, hfull⟩ := hstop
    exact ⟨q, rest, by rw [he]; rfl, hvalid, (hputs.full_iff taken q).mp hfull⟩

theorem placeLoop_takes (h : placeLoop signer clock ps (s, events) = .ok (s', events')) :
    ∃ taken, Takes clock s ps taken ∧ Puts clock taken s s' := by
  induction ps generalizing s events with
  | nil =>
    obtain ⟨rfl, -⟩ := Prod.mk.inj (Except.ok.inj h)
    exact ⟨[], ⟨allPlaceable_nil clock s, Or.inl rfl⟩, Puts.refl clock s⟩
  | cons p ps ih =>
    have hstep := placeOne_step signer clock s p
    obtain ⟨placed, hplace, h⟩ := bind_eq_ok.mp h
    rw [hplace] at hstep
    cases hstep with
    | full hvalid hfull =>
      obtain ⟨rfl, -⟩ := Prod.mk.inj (Except.ok.inj h)
      exact ⟨[], ⟨allPlaceable_nil clock s, Or.inr ⟨p, ps, rfl, hvalid, hfull⟩⟩, Puts.refl clock s⟩
    | placed s₁ e hplaceable hputs =>
      obtain ⟨taken, htakes, hrest⟩ := ih h
      exact ⟨p :: taken, (takes_cons_iff hplaceable hputs).mpr htakes, hputs.append hrest⟩

theorem exists_placeLoop_of_takes (signer : Pubkey) (events : List Event)
    (h : Takes clock s ps taken) :
    ∃ s' events', placeLoop signer clock ps (s, events) = .ok (s', events') ∧
      Puts clock taken s s' := by
  induction ps generalizing s events taken with
  | nil =>
    obtain rfl : taken = [] := by
      rcases h.stop with he | ⟨q, rest, he, -⟩
      · exact he.symm
      · exact absurd he Positions.nil_ne_split
    exact ⟨s, events, rfl, Puts.refl clock s⟩
  | cons p ps ih =>
    cases taken with
    | nil =>
      obtain ⟨q, rest, he, hvalid, hfull⟩ := h.stop.resolve_left (List.cons_ne_nil _ _)
      obtain ⟨rfl, rfl⟩ := List.cons.inj he
      exact ⟨s, events, bind_eq_ok.mpr ⟨none, placeOne_eq_none_iff.mpr ⟨hvalid, hfull⟩, rfl⟩,
        Puts.refl clock s⟩
    | cons q taken =>
      obtain rfl : p = q := by
        rcases h.stop with he | ⟨_, _, he, -⟩ <;> exact (List.cons.inj he).1
      have hplaceable := placeable_of_allPlaceable_cons h.placeable
      obtain ⟨⟨s₁, e⟩, hplace⟩ := exists_placeOne_of_placeable signer hplaceable
      have hputs := (placeOne_puts hplace).2
      obtain ⟨s', events', hloop, hrest⟩ :=
        ih (events ++ [e]) ((takes_cons_iff hplaceable hputs).mp h)
      exact ⟨s', events', bind_eq_ok.mpr ⟨some (s₁, e), hplace, hloop⟩, hputs.append hrest⟩

theorem placeLoop_of_error {e : TxError} (h : placeOne signer clock p s = .error e) :
    placeLoop signer clock (p :: ps) (s, events) = .error e := by
  rw [placeLoop, h]
  rfl

theorem placeLoop_of_full (h : placeOne signer clock p s = .ok none) :
    placeLoop signer clock (p :: ps) (s, events) = .ok (s, events) := by
  rw [placeLoop, h]
  rfl

theorem placeLoop_of_placed {e : Event} (h : placeOne signer clock p s = .ok (some (s', e))) :
    placeLoop signer clock (p :: ps) (s, events) =
      placeLoop signer clock ps (s', events ++ [e]) := by
  rw [placeLoop, h]
  rfl

theorem placeLoop_events (signer : Pubkey) (clock : Clock) (ps : List PlaceOrderParams)
    (s : ProgramState) (events : List Event) :
    placeLoop signer clock ps (s, events) =
      (placeLoop signer clock ps (s, [])).map (emitAfter events) := by
  induction ps generalizing s events with
  | nil => simp [placeLoop, Except.map, emitAfter]
  | cons p ps ih =>
    cases hplace : placeOne signer clock p s with
    | error e =>
      rw [placeLoop_of_error hplace, placeLoop_of_error hplace]
      rfl
    | ok placed =>
      cases placed with
      | none =>
        rw [placeLoop_of_full hplace, placeLoop_of_full hplace]
        simp [Except.map, emitAfter]
      | some st =>
        rw [placeLoop_of_placed hplace, placeLoop_of_placed hplace, ih, ih st.1 ([] ++ [st.2])]
        cases placeLoop signer clock ps (st.1, []) with
        | error e => rfl
        | ok out => simp [Except.map, emitAfter]

theorem placeOrderHandler_eq (signer : Pubkey) (clock : Clock) (p : PlaceOrderParams)
    (s : ProgramState) :
    placeOrderHandler signer clock p s = placeMultipleOrdersHandler signer clock [p] s := by
  refine congrArg (require _ _ >>= ·) (funext fun _ => ?_)
  rw [placeLoop]
  refine congrArg (placeOne signer clock p s >>= ·) (funext fun placed => ?_)
  cases placed <;> rfl

theorem process_placeMultipleOrders (hrunning : s.auctionState.isPaused = false) (signer : Pubkey)
    (clock : Clock) (ps : List PlaceOrderParams) :
    process s ⟨signer, clock, .placeMultipleOrders ps⟩ = placeLoop signer clock ps (s, []) := by
  have hok : require (!s.auctionState.isPaused) .auctionPaused = .ok () :=
    require_eq_ok.mpr (by rw [hrunning]; rfl)
  change placeMultipleOrdersHandler signer clock ps s = _
  unfold placeMultipleOrdersHandler
  rw [hok]
  rfl

theorem process_placeOrder (hrunning : s.auctionState.isPaused = false) (signer : Pubkey)
    (clock : Clock) (p : PlaceOrderParams) :
    process s ⟨signer, clock, .placeOrder p⟩ = placeLoop signer clock [p] (s, []) :=
  (placeOrderHandler_eq signer clock p s).trans (process_placeMultipleOrders hrunning signer clock [p])

end Loop

end ToyDfba
