import ToyDfba.Proofs.Queues
import ToyDfba.Spec.Wire

/-! What the formats read and write: the layouts of `Spec/Borsh.lean` and nothing else,
whatever follows them, and no account stands at the address of another. -/

namespace ToyDfba

open Codec

section Layouts

theorem nat_encode (n x : ℕ) : (nat n).encode x = leBytes n x := by
  induction n generalizing x with
  | zero => rfl
  | succ n ih => exact congrArg (UInt8.ofNat (x % 256) :: ·) (ih (x / 256))

theorem codecU64_encode (x : U64) : codecU64.encode x = encodeU64 x := nat_encode 8 x.val

theorem codecU32_encode (x : U32) : codecU32.encode x = encodeU32 x := nat_encode 4 x.val

theorem codecI64_encode (x : I64) : codecI64.encode x = encodeI64 x := nat_encode 8 x.toNat

theorem codecPubkey_encode (k : Pubkey) : codecPubkey.encode k = encodePubkey k :=
  nat_encode 32 k.toNat

theorem codecBool_encode (b : Bool) : codecBool.encode b = encodeBool b := by
  cases b <;> rfl

theorem AuctionType.codec_encode (t : AuctionType) : AuctionType.codec.encode t = t.encode := by
  cases t <;> rfl

theorem OrderType.codec_encode (t : OrderType) : OrderType.codec.encode t = t.encode := by
  cases t <;> rfl

theorem Side.codec_encode (side : Side) : Side.codec.encode side = side.encode := by
  cases side <;> rfl

theorem Order.codec_encode (o : Order) : Order.codec.encode o = o.encode := by
  simp only [Order.codec, iso, via, seq, Order.fields, Equiv.coe_fn_symm_mk, codecU64_encode,
    codecPubkey_encode, OrderType.codec_encode, Side.codec_encode, codecI64_encode,
    codecBool_encode, Order.encode, List.append_assoc]

theorem OrderQueue.account_encode (q : OrderQueue) :
    OrderQueue.account.encode q = q.accountData OrderQueue.discriminator := by
  have horders : Order.codec.encode = Order.encode := funext Order.codec_encode
  simp only [OrderQueue.account, tagged, OrderQueue.codec, iso, via, seq, vec, OrderQueue.fields,
    Equiv.coe_fn_symm_mk, AuctionType.codec_encode, nat_encode, horders, codecU32_encode,
    OrderQueue.accountData, OrderQueue.encode, encodeOrders, List.append_assoc]

theorem PlaceOrderParams.codec_encode (p : PlaceOrderParams) :
    PlaceOrderParams.codec.encode p = p.encode := by
  simp only [PlaceOrderParams.codec, iso, via, seq, PlaceOrderParams.fields,
    Equiv.coe_fn_symm_mk, OrderType.codec_encode, Side.codec_encode, codecU64_encode,
    PlaceOrderParams.encode, List.append_assoc]

theorem vec_params_encode (orders : List PlaceOrderParams) :
    (vec (nat 4) PlaceOrderParams.codec).encode orders = encodeParams orders := by
  have hparams : PlaceOrderParams.codec.encode = PlaceOrderParams.encode :=
    funext PlaceOrderParams.codec_encode
  simp only [vec, nat_encode, hparams, encodeParams]

theorem Instruction.codec_encode (ix : Instruction) : Instruction.codec.encode ix = ix.data := by
  cases ix with
  | initializeAuction n => exact congrArg (_ ++ ·) (codecU64_encode n)
  | placeOrder params => exact congrArg (_ ++ ·) params.codec_encode
  | placeMultipleOrders orders => exact congrArg (_ ++ ·) (vec_params_encode orders)
  | cancelAllOrders => exact List.append_nil _
  | cancelAllAndPostNewOrders orders => exact congrArg (_ ++ ·) (vec_params_encode orders)
  | initializeResult batchId => exact congrArg (_ ++ ·) (codecU64_encode batchId)
  | executeBatch batchId => exact congrArg (_ ++ ·) (codecU64_encode batchId)

end Layouts

section Validity

theorem codecU64_valid (x : U64) : codecU64.Valid x := fin_valid (by norm_num) x

theorem codecU32_valid (x : U32) : codecU32.Valid x := fin_valid (by norm_num) x

theorem codecI64_valid (x : I64) : codecI64.Valid x := bits_valid (by norm_num) x

theorem codecPubkey_valid (k : Pubkey) : codecPubkey.Valid k := bits_valid (by norm_num) k

theorem Order.codec_valid (o : Order) : Order.codec.Valid o :=
  ⟨codecU64_valid _, codecPubkey_valid _, trivial, trivial, codecU64_valid _, codecU64_valid _,
    codecI64_valid _, trivial, codecU64_valid _⟩

theorem OrderQueue.account_valid_iff {q : OrderQueue} :
    OrderQueue.account.Valid q ↔ q.orders.length < 2 ^ 32 := by
  have hcount : (nat 4).Valid q.orders.length ↔ q.orders.length < 2 ^ 32 := by
    rw [nat_valid_iff]
    norm_num
  rw [← hcount]
  constructor
  · intro h
    exact h.2.1.1
  · intro h
    exact ⟨trivial, ⟨h, fun o _ => o.codec_valid⟩, codecU32_valid _⟩

theorem AuctionState.account_valid (a : AuctionState) : AuctionState.account.Valid a :=
  ⟨codecPubkey_valid _, codecU64_valid _, codecU64_valid _, codecU64_valid _, trivial⟩

theorem PlaceOrderParams.codec_valid (p : PlaceOrderParams) : PlaceOrderParams.codec.Valid p :=
  ⟨trivial, trivial, codecU64_valid _, codecU64_valid _⟩

theorem Instruction.codec_valid_iff {ix : Instruction} :
    Instruction.codec.Valid ix ↔ ix.orders.length < 2 ^ 32 := by
  have hvec : ∀ orders, (vec (nat 4) PlaceOrderParams.codec).Valid orders ↔
      orders.length < 2 ^ 32 := by
    intro orders
    have hparams : ∀ p ∈ orders, PlaceOrderParams.codec.Valid p := fun p _ => p.codec_valid
    have hcount : (nat 4).Valid orders.length ↔ orders.length < 2 ^ 32 := by
      rw [nat_valid_iff]
      norm_num
    exact (and_iff_left hparams).trans hcount
  cases ix with
  | placeMultipleOrders orders => exact hvec orders
  | cancelAllAndPostNewOrders orders => exact hvec orders
  | placeOrder params => exact iff_of_true params.codec_valid (by simp [Instruction.orders])
  | cancelAllOrders => exact iff_of_true trivial (by simp [Instruction.orders])
  | initializeAuction n => exact iff_of_true (codecU64_valid n) (by simp [Instruction.orders])
  | initializeResult batchId => exact iff_of_true (codecU64_valid batchId) (by simp [Instruction.orders])
  | executeBatch batchId => exact iff_of_true (codecU64_valid batchId) (by simp [Instruction.orders])

end Validity

/-- Instruction data is read as an instruction exactly when it begins with the layout of
that instruction. -/
theorem instruction_decode_iff {data rest : List UInt8} {ix : Instruction} :
    Instruction.codec.decode data = some (ix, rest) ↔
      ix.orders.length < 2 ^ 32 ∧ data = ix.data ++ rest := by
  rw [Codec.decode_eq_some_iff, Instruction.codec_valid_iff, Instruction.codec_encode]

section Transactions

theorem Slot.accepts_account (signer : Pubkey) (slot : Slot) : slot.accepts (slot.account signer) := by
  cases slot <;> simp [accepts, account]

theorem accepted_account (signer : Pubkey) (slots : List Slot) :
    accepted slots (slots.map (Slot.account signer)) := by
  have hall : (slots.zip (slots.map (Slot.account signer))).all (fun x => x.1.accepts x.2) := by
    induction slots with
    | nil => rfl
    | cons slot slots ih =>
      rw [List.map_cons, List.zip_cons_cons, List.all_cons, ih, Bool.and_true]
      exact slot.accepts_account signer
  rw [accepted, hall, Bool.and_true, List.length_map]
  exact decide_eq_true le_rfl

theorem signerIn_account (signer : Pubkey) (ix : Instruction) :
    signerIn ix.slots (ix.slots.map (Slot.account signer)) = some signer := by
  rw [signerIn, if_pos (accepted_account signer ix.slots)]
  cases ix <;> rfl

theorem Tx.raw_ix {tx : Tx} (h : tx.ix.orders.length < 2 ^ 32) : tx.raw.ix = some tx.ix := by
  have hdecode : Instruction.codec.decode tx.ix.data = some (tx.ix, []) :=
    instruction_decode_iff.mpr ⟨h, (List.append_nil tx.ix.data).symm⟩
  rw [RawTx.ix, Tx.raw, hdecode]
  rfl

theorem Tx.raw_tx {tx : Tx} (h : tx.ix.orders.length < 2 ^ 32) : tx.raw.tx = some tx := by
  have hsigner : signerIn tx.ix.slots tx.raw.accounts = some tx.signer :=
    signerIn_account tx.signer tx.ix
  rw [RawTx.tx, Tx.raw_ix h, Option.bind_eq_bind, Option.bind_some, hsigner]
  rfl

theorem RawTx.not_foreign {raw : RawTx} {ix : Instruction} (h : raw.ix = some ix) :
    ¬ raw.foreign := by
  obtain ⟨⟨ix', rest⟩, hdecode, rfl⟩ := Option.map_eq_some_iff.mp h
  obtain ⟨-, hdata⟩ := instruction_decode_iff.mp hdecode
  have htag : raw.data.take 8 = ix'.call.1.discriminator := by
    rw [hdata]
    cases ix' <;> rfl
  have hother : ∀ k : EntryPoint, k.discriminator ∉ foreignTags := by
    intro k
    cases k <;> decide
  unfold foreign
  rw [htag]
  exact mt of_decide_eq_true (hother _)

theorem RawTx.ix_of_tx {raw : RawTx} {tx : Tx} (h : raw.tx = some tx) : raw.ix = some tx.ix := by
  obtain ⟨ix, hix, h⟩ := Option.bind_eq_some_iff.mp h
  obtain ⟨signer, -, h⟩ := Option.bind_eq_some_iff.mp h
  obtain rfl := Option.some.inj h
  exact hix

variable {libs : Libraries} {store : Store} {raw : RawTx}

theorem processRaw_of_tx {tx : Tx} (h : raw.tx = some tx) :
    processRaw libs store raw = rawProcess tx.signer tx.clock store tx.ix := by
  have hix := RawTx.ix_of_tx h
  rw [processRaw, if_neg (RawTx.not_foreign hix), hix, h]

theorem processRaw_of_no_tx (hnot : ¬ raw.foreign) (h : raw.tx = none) :
    ∃ e, processRaw libs store raw = .error e := by
  unfold processRaw
  rw [if_neg hnot, h]
  cases raw.ix with
  | none => exact ⟨_, rfl⟩
  | some ix => exact ⟨_, rfl⟩

end Transactions

/-- A queue account is read as a queue exactly when it begins with the layout of that
queue. -/
theorem orderQueue_decode_iff {data rest : List UInt8} {q : OrderQueue} :
    OrderQueue.account.decode data = some (q, rest) ↔
      q.orders.length < 2 ^ 32 ∧ data = q.accountData OrderQueue.discriminator ++ rest := by
  rw [Codec.decode_eq_some_iff, OrderQueue.account_valid_iff, OrderQueue.account_encode]

section Addresses

theorem encodeU64_inj {x y : U64} (h : encodeU64 x = encodeU64 y) : x = y := by
  rw [← codecU64_encode, ← codecU64_encode] at h
  exact codecU64.encode_inj (codecU64_valid x) (codecU64_valid y) h

theorem Address.key_length (a : Address) :
    a.key.length = match a with
      | .auctionState => 13
      | .bidQueue | .askQueue => 9
      | .result _ => 14 := by
  cases a with
  | result batchId => simp [Address.key, Address.seeds, encodeU64, leBytes_length, ascii]
  | auctionState => decide
  | bidQueue => decide
  | askQueue => decide

theorem bidQueue_key_ne_askQueue : Address.bidQueue.key ≠ Address.askQueue.key := by decide

theorem Address.result_key_inj {x y : U64} (h : (Address.result x).key = (Address.result y).key) :
    x = y := by
  simp only [Address.key, Address.seeds, List.flatten_cons] at h
  exact encodeU64_inj (List.append_cancel_right (List.append_cancel_left h))

theorem Address.key_inj {a b : Address} (h : a.key = b.key) : a = b := by
  have hlength := congrArg List.length h
  rw [Address.key_length, Address.key_length] at hlength
  cases a with
  | auctionState => cases b <;> simp at hlength ⊢
  | bidQueue =>
    cases b with
    | askQueue => exact absurd h bidQueue_key_ne_askQueue
    | _ => simp at hlength ⊢
  | askQueue =>
    cases b with
    | bidQueue => exact absurd h.symm bidQueue_key_ne_askQueue
    | _ => simp at hlength ⊢
  | result x =>
    cases b with
    | result y => rw [Address.result_key_inj h]
    | _ => simp at hlength

end Addresses

end ToyDfba
