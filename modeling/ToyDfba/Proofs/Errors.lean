import ToyDfba.Proofs.Pool

/-! Every way an instruction can fail, with the error it fails with. A full queue and a
paused auction are not among them: the first stops a placement that succeeds, and nothing
pauses an auction. -/

namespace ToyDfba

section Bind

variable {ε α β : Type} {x : Except ε α} {f : α → Except ε β}

theorem bind_of_ok {a : α} (h : x = .ok a) : (x >>= f) = f a := by
  rw [h]
  rfl

theorem bind_of_error {e : ε} (h : x = .error e) : (x >>= f) = .error e := by
  rw [h]
  rfl

end Bind

/-- How a request fails that comes after the requests `pre` are placed. -/
inductive Refuses (clock : Clock) (s : ProgramState) (pre : List PlaceOrderParams)
    (p : PlaceOrderParams) : TxError → Prop
  | invalid (hvalid : ¬ p.Valid) : Refuses clock s pre p (.program .invalidOrderParameters)
  | noId (hvalid : p.Valid) (hroom : ¬ Full s pre p)
    (hid : 2 ^ 64 ≤ (asU64 clock.unixTimestamp).val + lengthAfter s pre p.queue) :
    Refuses clock s pre p .panicked

inductive Fails (s : ProgramState) (tx : Tx) : TxError → Prop
  | started (batchInterval : U64) (hix : tx.ix = .initializeAuction batchInterval) :
    Fails s tx .accountInUse
  | refused (pre post : List PlaceOrderParams) (p : PlaceOrderParams) (e : TxError)
    (horders : tx.ix.orders = pre ++ p :: post)
    (hplaceable : AllPlaceable tx.clock (afterCancel s tx) pre)
    (hrefuses : Refuses tx.clock (afterCancel s tx) pre p e) : Fails s tx e
  | reserved (batchId : U64) (hix : tx.ix = .initializeResult batchId ∨ tx.ix = .executeBatch batchId)
    (hused : s.results batchId ≠ none) : Fails s tx .accountInUse
  | never (batchId : U64) (hix : tx.ix = .executeBatch batchId) (hfree : s.results batchId = none)
    (hoverflow : 2 ^ 64 ≤ s.auctionState.lastBatchSlot.val + s.auctionState.batchInterval.val) :
    Fails s tx .panicked
  | early (batchId : U64) (hix : tx.ix = .executeBatch batchId) (hfree : s.results batchId = none)
    (hfits : s.auctionState.lastBatchSlot.val + s.auctionState.batchInterval.val < 2 ^ 64)
    (hearly : tx.clock.slot.val <
      s.auctionState.lastBatchSlot.val + s.auctionState.batchInterval.val) :
    Fails s tx (.program .tooEarlyToExecute)
  | aborted (batchId : U64) (hix : tx.ix = .executeBatch batchId) (hfree : s.results batchId = none)
    (hdue : s.auctionState.lastBatchSlot.val + s.auctionState.batchInterval.val ≤ tx.clock.slot.val)
    (haborts : (∃ t, Jams t (s.queue t).orders) ∨ s.auctionState.batchCounter.val + 1 = 2 ^ 64) :
    Fails s tx .panicked

section Placement

variable {signer : Pubkey} {clock : Clock} {s s' : ProgramState} {p : PlaceOrderParams}
  {ps : List PlaceOrderParams} {e : TxError}

theorem Puts.refuses_iff (h : Puts clock ps s s') (qs : List PlaceOrderParams) (p : PlaceOrderParams) :
    Refuses clock s' qs p e ↔ Refuses clock s (ps ++ qs) p e := by
  have hlength := h.lengthAfter_eq qs p.queue
  constructor
  · intro hrefuses
    cases hrefuses with
    | invalid hvalid => exact .invalid hvalid
    | noId hvalid hroom hid => exact .noId hvalid (mt (h.full_iff qs p).mpr hroom) (hlength ▸ hid)
  · intro hrefuses
    cases hrefuses with
    | invalid hvalid => exact .invalid hvalid
    | noId hvalid hroom hid =>
      exact .noId hvalid (mt (h.full_iff qs p).mp hroom) (hlength.symm ▸ hid)

theorem placeOne_of_refuses (signer : Pubkey) (h : Refuses clock s [] p e) :
    placeOne signer clock p s = .error e := by
  cases h with
  | invalid hvalid => exact bind_of_error (if_neg hvalid)
  | noId hvalid hroom hid =>
    have hrequire : require (p.price > 0 ∧ p.quantity > 0) .invalidOrderParameters = .ok () :=
      require_eq_ok.mpr hvalid
    have hnone : Checked.add (asU64 clock.unixTimestamp)
        (Fin.ofNat (2 ^ 64) (s.queue p.queue).orders.length) = none := by
      rw [lengthAfter, requests_nil, Nat.add_zero] at hid
      rw [Option.eq_none_iff_forall_not_mem]
      intro orderId hsome
      have hsum := (add_length_eq_some hroom).mp hsome
      have hlt := orderId.isLt
      omega
    refine (bind_of_ok hrequire).trans ((if_neg hroom).trans (bind_of_error ?_))
    change orPanic (Checked.add (asU64 clock.unixTimestamp)
      (Fin.ofNat (2 ^ 64) (s.queue p.queue).orders.length)) = _
    rw [hnone]
    rfl

theorem refuses_of_placeOne (h : placeOne signer clock p s = .error e) : Refuses clock s [] p e := by
  have hstep := placeOne_step signer clock s p
  rw [h] at hstep
  cases hstep with
  | failed _ hnot hstop =>
    obtain ⟨e', he'⟩ : ∃ e', Refuses clock s [] p e' := by
      by_cases hvalid : p.Valid
      · have hroom : ¬ Full s [] p := fun hfull => hstop ⟨hvalid, hfull⟩
        refine ⟨_, .noId hvalid hroom ?_⟩
        by_contra hid
        exact hnot ⟨hvalid, hroom, not_le.mp hid⟩
      · exact ⟨_, .invalid hvalid⟩
    rw [placeOne_of_refuses signer he', Except.error.injEq] at h
    exact h ▸ he'

/-- A loop fails at the first request that neither finds a place nor a full queue. -/
theorem placeLoop_eq_error_iff {events : List Event} :
    placeLoop signer clock ps (s, events) = .error e ↔
      ∃ pre p post, ps = pre ++ p :: post ∧ AllPlaceable clock s pre ∧ Refuses clock s pre p e := by
  induction ps generalizing s events with
  | nil =>
    constructor
    · intro h
      cases h
    · rintro ⟨pre, p, post, he, -⟩
      exact absurd he Positions.nil_ne_split
  | cons p ps ih =>
    constructor
    · intro h
      cases hplace : placeOne signer clock p s with
      | error e' =>
        rw [placeLoop_of_error hplace, Except.error.injEq] at h
        exact ⟨[], p, ps, rfl, allPlaceable_nil clock s, refuses_of_placeOne (h ▸ hplace)⟩
      | ok placed =>
        cases placed with
        | none =>
          rw [placeLoop_of_full hplace] at h
          cases h
        | some st =>
          obtain ⟨s', placed⟩ := st
          obtain ⟨hplaceable, hputs⟩ := placeOne_puts hplace
          rw [placeLoop_of_placed hplace] at h
          obtain ⟨pre, q, post, rfl, hall, hrefuses⟩ := ih.mp h
          exact ⟨p :: pre, q, post, rfl, (allPlaceable_cons_iff hputs).mpr ⟨hplaceable, hall⟩,
            (hputs.refuses_iff pre q).mp hrefuses⟩
    · rintro ⟨pre, q, post, he, hall, hrefuses⟩
      cases pre with
      | nil =>
        obtain ⟨rfl, rfl⟩ := List.cons.inj he
        exact placeLoop_of_error (placeOne_of_refuses signer hrefuses)
      | cons p' pre =>
        obtain ⟨rfl, rfl⟩ := List.cons.inj he
        obtain ⟨⟨s₁, e₁⟩, hplace⟩ :=
          exists_placeOne_of_placeable signer (placeable_of_allPlaceable_cons hall)
        have hputs := (placeOne_puts hplace).2
        rw [placeLoop_of_placed hplace]
        exact ih.mpr ⟨pre, q, post, rfl, ((allPlaceable_cons_iff hputs).mp hall).2,
          (hputs.refuses_iff pre q).mpr hrefuses⟩

end Placement

section Batch

variable {clock : Clock} {batchId : U64} {s : ProgramState}

theorem initResult_of_used (h : s.results batchId ≠ none) :
    initResult batchId s = .error .accountInUse := by
  obtain ⟨r, hr⟩ := Option.ne_none_iff_exists'.mp h
  rw [initResult, hr]

theorem checkedAdd_eq_none {a b : U64} (h : 2 ^ 64 ≤ a.val + b.val) : Checked.add a b = none := by
  rw [Option.eq_none_iff_forall_not_mem]
  intro c hc
  have hsum := Checked.add_eq_some.mp hc
  have hlt := c.isLt
  omega

variable (hfree : s.results batchId = none)

include hfree

theorem executeBatchHandler_of_overflow
    (h : 2 ^ 64 ≤ s.auctionState.lastBatchSlot.val + s.auctionState.batchInterval.val) :
    executeBatchHandler clock batchId s = .error .panicked := by
  refine (bind_of_ok (initResult_eq_ok.mpr ⟨hfree, rfl⟩)).trans (bind_of_error ?_)
  exact congrArg orPanic (checkedAdd_eq_none h)

theorem executeBatchHandler_of_early
    (hfits : s.auctionState.lastBatchSlot.val + s.auctionState.batchInterval.val < 2 ^ 64)
    (hearly : clock.slot.val < s.auctionState.lastBatchSlot.val + s.auctionState.batchInterval.val) :
    executeBatchHandler clock batchId s = .error (.program .tooEarlyToExecute) := by
  have hadd : Checked.add s.auctionState.lastBatchSlot s.auctionState.batchInterval =
      some ⟨_, hfits⟩ := Checked.add_eq_some.mpr rfl
  refine (bind_of_ok (initResult_eq_ok.mpr ⟨hfree, rfl⟩)).trans ?_
  refine (bind_of_ok (orPanic_eq_ok.mpr hadd)).trans (bind_of_error (if_neg ?_))
  exact not_le.mpr hearly

theorem executeBatchHandler_of_aborts
    (hdue : s.auctionState.lastBatchSlot.val + s.auctionState.batchInterval.val ≤ clock.slot.val)
    (h : (∃ t, Jams t (s.queue t).orders) ∨ s.auctionState.batchCounter.val + 1 = 2 ^ 64) :
    executeBatchHandler clock batchId s = .error .panicked := by
  have hadd : Checked.add s.auctionState.lastBatchSlot s.auctionState.batchInterval =
      some ⟨_, hdue.trans_lt clock.slot.isLt⟩ := Checked.add_eq_some.mpr rfl
  refine (bind_of_ok (initResult_eq_ok.mpr ⟨hfree, rfl⟩)).trans ?_
  refine (bind_of_ok (orPanic_eq_ok.mpr hadd)).trans ?_
  refine (bind_of_ok (require_eq_ok (u := ()).mpr hdue)).trans ?_
  cases hbid : executeAuction s.bidQueue.orders .bid with
  | none => exact bind_of_error rfl
  | some bid =>
    refine (bind_of_ok rfl).trans ?_
    cases hask : executeAuction s.askQueue.orders .ask with
    | none => exact bind_of_error rfl
    | some ask =>
      have hnojam : ¬ ∃ t, Jams t (s.queue t).orders := by
        rintro ⟨t, hjams⟩
        have hnone := executeAuction_eq_none_iff.mpr hjams
        cases t with
        | bid => cases hbid.symm.trans hnone
        | ask => cases hask.symm.trans hnone
      have hcounter := checkedAdd_eq_none (b := (1 : U64)) (h.resolve_left hnojam).ge
      refine (bind_of_ok rfl).trans (bind_of_error ?_)
      exact congrArg orPanic hcounter

end Batch

section Process

variable {s : ProgramState} {tx : Tx} {e : TxError}

theorem process_placement (hrunning : s.auctionState.isPaused = false)
    (hplaces : (∃ p, tx.ix = .placeOrder p) ∨ (∃ ps, tx.ix = .placeMultipleOrders ps) ∨
      ∃ ps, tx.ix = .cancelAllAndPostNewOrders ps) :
    process s tx = placeLoop tx.signer tx.clock tx.ix.orders (afterCancel s tx, []) := by
  obtain ⟨signer, clock, ix⟩ := tx
  rcases hplaces with ⟨p, rfl⟩ | ⟨ps, rfl⟩ | ⟨ps, rfl⟩
  · exact process_placeOrder hrunning signer clock p
  · exact process_placeMultipleOrders hrunning signer clock ps
  · exact process_placeMultipleOrders (s := retainOthers signer s) hrunning signer clock ps

theorem places_of_orders {ix : Instruction} {p : PlaceOrderParams} {pre post : List PlaceOrderParams}
    (h : ix.orders = pre ++ p :: post) :
    (∃ p, ix = .placeOrder p) ∨ (∃ ps, ix = .placeMultipleOrders ps) ∨
      ∃ ps, ix = .cancelAllAndPostNewOrders ps := by
  cases ix with
  | placeOrder p => exact Or.inl ⟨p, rfl⟩
  | placeMultipleOrders ps => exact Or.inr (Or.inl ⟨ps, rfl⟩)
  | cancelAllAndPostNewOrders ps => exact Or.inr (Or.inr ⟨ps, rfl⟩)
  | _ => exact absurd h Positions.nil_ne_split

theorem process_of_fails (hrunning : s.auctionState.isPaused = false) (h : Fails s tx e) :
    process s tx = .error e := by
  cases h with
  | started batchInterval hix => rw [process, hix]
  | refused pre post p e horders hplaceable hrefuses =>
    rw [process_placement hrunning (places_of_orders horders)]
    exact placeLoop_eq_error_iff.mpr ⟨pre, p, post, horders, hplaceable, hrefuses⟩
  | reserved batchId hix hused =>
    rcases hix with hix | hix
    · rw [process, hix]
      exact bind_of_error (initResult_of_used hused)
    · rw [process, hix]
      exact bind_of_error (initResult_of_used hused)
  | never batchId hix hfree hoverflow =>
    rw [process, hix]
    exact executeBatchHandler_of_overflow hfree hoverflow
  | early batchId hix hfree hfits hearly =>
    rw [process, hix]
    exact executeBatchHandler_of_early hfree hfits hearly
  | aborted batchId hix hfree hdue haborts =>
    rw [process, hix]
    exact executeBatchHandler_of_aborts hfree hdue haborts

theorem exists_fails (hrunning : s.auctionState.isPaused = false) (h : process s tx = .error e) :
    ∃ e', Fails s tx e' := by
  have hplacement : ((∃ p, tx.ix = .placeOrder p) ∨ (∃ ps, tx.ix = .placeMultipleOrders ps) ∨
      ∃ ps, tx.ix = .cancelAllAndPostNewOrders ps) → ∃ e', Fails s tx e' := by
    intro hplaces
    rw [process_placement hrunning hplaces] at h
    obtain ⟨pre, p, post, horders, hplaceable, hrefuses⟩ := placeLoop_eq_error_iff.mp h
    exact ⟨e, .refused pre post p e horders hplaceable hrefuses⟩
  cases hix : tx.ix with
  | initializeAuction batchInterval => exact ⟨_, .started batchInterval hix⟩
  | placeOrder p => exact hplacement (Or.inl ⟨p, hix⟩)
  | placeMultipleOrders ps => exact hplacement (Or.inr (Or.inl ⟨ps, hix⟩))
  | cancelAllAndPostNewOrders ps => exact hplacement (Or.inr (Or.inr ⟨ps, hix⟩))
  | cancelAllOrders =>
    rw [process, hix] at h
    cases h
  | initializeResult batchId =>
    by_cases hfree : s.results batchId = none
    · rw [process, hix] at h
      cases (bind_of_ok (initResult_eq_ok.mpr ⟨hfree, rfl⟩)).symm.trans h
    · exact ⟨_, .reserved batchId (Or.inl hix) hfree⟩
  | executeBatch batchId =>
    by_cases hfree : s.results batchId = none
    · by_cases hdue :
          s.auctionState.lastBatchSlot.val + s.auctionState.batchInterval.val ≤ tx.clock.slot.val
      · refine ⟨_, .aborted batchId hix hfree hdue ?_⟩
        by_contra hnot
        obtain ⟨hnojam, hcounter⟩ := not_or.mp hnot
        have hlt := s.auctionState.batchCounter.isLt
        have hready : BatchReady tx.clock batchId s :=
          ⟨hfree, hdue, fun t hjams => hnojam ⟨t, hjams⟩, by omega⟩
        obtain ⟨out, hok⟩ := (succeeds_iff_ready hix).mpr hready
        cases hok.symm.trans h
      · by_cases hfits :
            s.auctionState.lastBatchSlot.val + s.auctionState.batchInterval.val < 2 ^ 64
        · exact ⟨_, .early batchId hix hfree hfits (not_le.mp hdue)⟩
        · exact ⟨_, .never batchId hix hfree (not_lt.mp hfits)⟩
    · exact ⟨_, .reserved batchId (Or.inr hix) hfree⟩

end Process

/-- In every state of a run a transaction fails exactly in the ways listed, and with the
error listed there. -/
theorem process_eq_error_iff {s : ProgramState} (h : Reachable s) (tx : Tx) (e : TxError) :
    process s tx = .error e ↔ Fails s tx e := by
  have hrunning := h.isPaused_eq
  constructor
  · intro herror
    obtain ⟨e', he'⟩ := exists_fails hrunning herror
    have hsame := (process_of_fails hrunning he').symm.trans herror
    rw [Except.error.injEq] at hsame
    exact hsame ▸ he'
  · exact process_of_fails hrunning

/-- The second request is not valid, so the first one is undone as well. -/
theorem process_eq_error_sampleTx :
    process sampleStart
        (sampleTx 0 (.placeMultipleOrders [⟨.maker, .buy, 105, 300⟩, ⟨.maker, .buy, 0, 300⟩])) =
      .error (.program .invalidOrderParameters) := by
  refine (process_eq_error_iff ⟨_, [], started_sampleStart, rfl⟩ _ _).mpr
    (.refused [⟨.maker, .buy, 105, 300⟩] [] ⟨.maker, .buy, 0, 300⟩ _ rfl ?_ (.invalid (by decide)))
  intro pre p post he
  obtain ⟨rfl, rfl, rfl⟩ : pre = [] ∧ p = ⟨.maker, .buy, 105, 300⟩ ∧ post = [] := by
    cases pre with
    | nil =>
      obtain ⟨rfl, rfl⟩ := List.cons.inj he
      exact ⟨rfl, rfl, rfl⟩
    | cons q pre =>
      exact absurd (List.cons.inj he).2 Positions.nil_ne_split
  exact ⟨by decide, not_le.mpr (by decide), by decide⟩

end ToyDfba
