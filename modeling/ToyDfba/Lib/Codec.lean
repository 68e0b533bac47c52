import Mathlib.Data.List.Basic
import Mathlib.Data.List.Infix
import Mathlib.Data.Nat.Digits.Defs
import Mathlib.Logic.Equiv.Basic
import Mathlib.Tactic.Common
import Mathlib.Tactic.Ring

/-! Formats of values as bytes. A codec reads what it wrote, whatever bytes follow, and
reads nothing else; the formats of records, vectors and tagged sums are put together
from those of their parts, and their laws with them. -/

structure Codec (α : Type) where
  /-- The values that have an encoding. -/
  Valid : α → Prop
  encode : α → List UInt8
  decode : List UInt8 → Option (α × List UInt8)
  decode_encode : ∀ {a : α}, Valid a → ∀ rest, decode (encode a ++ rest) = some (a, rest)
  encode_decode : ∀ {bytes : List UInt8} {a : α} {rest : List UInt8},
    decode bytes = some (a, rest) → Valid a ∧ bytes = encode a ++ rest

namespace Codec

variable {α β κ : Type}

section Laws

variable (c : Codec α) {a b : α} {bytes rest : List UInt8}

theorem decode_eq_some_iff :
    c.decode bytes = some (a, rest) ↔ c.Valid a ∧ bytes = c.encode a ++ rest := by
  constructor
  · exact c.encode_decode
  · rintro ⟨ha, rfl⟩
    exact c.decode_encode ha rest

/-- No encoding begins another. -/
theorem encode_append_inj (ha : c.Valid a) (hb : c.Valid b) {rest' : List UInt8}
    (h : c.encode a ++ rest = c.encode b ++ rest') : a = b ∧ rest = rest' := by
  have hsame := c.decode_encode ha rest
  rw [h, c.decode_encode hb] at hsame
  exact ⟨(Prod.mk.inj (Option.some.inj hsame)).1.symm,
    (Prod.mk.inj (Option.some.inj hsame)).2.symm⟩

theorem encode_inj (ha : c.Valid a) (hb : c.Valid b) (h : c.encode a = c.encode b) : a = b :=
  (c.encode_append_inj ha hb (congrArg (· ++ []) h)).1

end Laws

def byte : Codec UInt8 where
  Valid _ := True
  encode b := [b]
  decode
    | [] => none
    | b :: bytes => some (b, bytes)
  decode_encode _ _ := rfl
  encode_decode {bytes a rest} h := by
    cases bytes with
    | nil => cases h
    | cons b bytes =>
      obtain ⟨rfl, rfl⟩ := Prod.mk.inj (Option.some.inj h)
      exact ⟨trivial, rfl⟩

def unit : Codec Unit where
  Valid _ := True
  encode _ := []
  decode bytes := some ((), bytes)
  decode_encode _ _ := rfl
  encode_decode {bytes a rest} h := by
    obtain ⟨rfl, rfl⟩ := Prod.mk.inj (Option.some.inj h)
    exact ⟨trivial, rfl⟩

/-- One value after another. -/
def seq (c : Codec α) (d : Codec β) : Codec (α × β) where
  Valid x := c.Valid x.1 ∧ d.Valid x.2
  encode x := c.encode x.1 ++ d.encode x.2
  decode bytes := do
    let (a, bytes) ← c.decode bytes
    let (b, bytes) ← d.decode bytes
    some ((a, b), bytes)
  decode_encode {x} hx rest := by
    simp [List.append_assoc, c.decode_encode hx.1, d.decode_encode hx.2]
  encode_decode {bytes x rest} h := by
    obtain ⟨⟨a, mid⟩, hc, h⟩ := Option.bind_eq_some_iff.mp h
    obtain ⟨⟨b, _⟩, hd, h⟩ := Option.bind_eq_some_iff.mp h
    obtain ⟨rfl, rfl⟩ := Prod.mk.inj (Option.some.inj h)
    obtain ⟨ha, rfl⟩ := c.encode_decode hc
    obtain ⟨hb, rfl⟩ := d.encode_decode hd
    exact ⟨⟨ha, hb⟩, (List.append_assoc _ _ _).symm⟩

/-- Values that are written as others; `read` says which value another one stands for,
if it stands for one. -/
def via (c : Codec α) (read : α → Option β) (write : β → α)
    (h : ∀ a b, read a = some b ↔ write b = a) : Codec β where
  Valid b := c.Valid (write b)
  encode b := c.encode (write b)
  decode bytes := do
    let (a, bytes) ← c.decode bytes
    let b ← read a
    some (b, bytes)
  decode_encode {b} hb rest := by
    simp [c.decode_encode hb, (h (write b) b).mpr rfl]
  encode_decode {bytes b rest} hread := by
    obtain ⟨⟨a, _⟩, hc, hread⟩ := Option.bind_eq_some_iff.mp hread
    obtain ⟨b', hb, hread⟩ := Option.bind_eq_some_iff.mp hread
    obtain ⟨rfl, rfl⟩ := Prod.mk.inj (Option.some.inj hread)
    obtain rfl := (h a b').mp hb
    exact c.encode_decode hc

def iso (c : Codec α) (e : α ≃ β) : Codec β :=
  c.via (fun a => some (e a)) e.symm fun a b => by
    rw [Option.some.injEq, Equiv.symm_apply_eq, eq_comm]

/-- One of at most 256 names, written as its place among them. -/
def variants [DecidableEq α] (names : List α) (hall : ∀ a, a ∈ names) (hnodup : names.Nodup)
    (hsmall : names.length ≤ 256) : Codec α :=
  byte.via (fun b => names[b.toNat]?) (fun a => UInt8.ofNat (names.idxOf a)) fun b a => by
    have hidx := List.idxOf_lt_length_of_mem (hall a)
    rw [List.getElem?_eq_some_iff, ← UInt8.toNat_inj, UInt8.toNat_ofNat_of_lt' (hidx.trans_le hsmall)]
    constructor
    · rintro ⟨hlt, rfl⟩
      exact hnodup.idxOf_getElem _ hlt
    · intro he
      refine ⟨he ▸ hidx, ?_⟩
      simp [← he]

section Numbers

/-- A number as its lowest byte and the rest. -/
def digit : UInt8 × ℕ ≃ ℕ where
  toFun x := x.1.toNat + 256 * x.2
  invFun n := (UInt8.ofNat (n % 256), n / 256)
  left_inv x := by
    have hlt := x.1.toNat_lt
    refine Prod.ext (UInt8.toNat_inj.mp ?_) ?_
    · simp
    · dsimp only
      omega
  right_inv n := by
    have hlt := Nat.mod_lt n (show 256 > 0 by decide)
    simp only [UInt8.toNat_ofNat']
    omega

/-- Numbers of `n` bytes, the least significant byte first. -/
def nat : ℕ → Codec ℕ
  | 0 =>
    { Valid := fun x => x = 0
      encode := fun _ => []
      decode := fun bytes => some (0, bytes)
      decode_encode := by rintro a rfl rest; rfl
      encode_decode := by
        intro bytes a rest h
        obtain ⟨rfl, rfl⟩ := Prod.mk.inj (Option.some.inj h)
        exact ⟨rfl, rfl⟩ }
  | n + 1 => (byte.seq (nat n)).iso digit

theorem nat_valid_iff {n x : ℕ} : (nat n).Valid x ↔ x < 256 ^ n := by
  induction n generalizing x with
  | zero => simp [nat]
  | succ n ih =>
    have hstep : (nat (n + 1)).Valid x ↔ True ∧ (nat n).Valid (x / 256) := Iff.rfl
    rw [hstep, ih, true_and, pow_succ, Nat.div_lt_iff_lt_mul (by decide)]

theorem nat_encode_length (n x : ℕ) : ((nat n).encode x).length = n := by
  induction n generalizing x with
  | zero => rfl
  | succ n ih => exact congrArg (· + 1) (ih (x / 256))

def fin (n m : ℕ) : Codec (Fin m) :=
  (nat n).via (fun x => if h : x < m then some ⟨x, h⟩ else none) Fin.val fun a b => by
    constructor
    · intro h
      split_ifs at h
      rw [← Option.some.inj h]
    · rintro rfl
      exact dif_pos b.isLt

theorem fin_valid {n m : ℕ} (h : m ≤ 256 ^ n) (x : Fin m) : (fin n m).Valid x :=
  nat_valid_iff.mpr (x.isLt.trans_le h)

theorem fin_encode_length {n m : ℕ} (x : Fin m) : ((fin n m).encode x).length = n :=
  nat_encode_length n x.val

def bits (n w : ℕ) : Codec (BitVec w) :=
  (fin n (2 ^ w)).iso ⟨BitVec.ofFin, BitVec.toFin, fun _ => rfl, fun _ => rfl⟩

theorem bits_valid {n w : ℕ} (h : 2 ^ w ≤ 256 ^ n) (x : BitVec w) : (bits n w).Valid x :=
  fin_valid h x.toFin

theorem bits_encode_length {n w : ℕ} (x : BitVec w) : ((bits n w).encode x).length = n :=
  nat_encode_length n x.toFin.val

end Numbers

section Vectors

/-- `n` values, one after the other. -/
def decodeMany (c : Codec α) : ℕ → List UInt8 → Option (List α × List UInt8)
  | 0, bytes => some ([], bytes)
  | n + 1, bytes => do
    let (a, bytes) ← c.decode bytes
    let (as, bytes) ← decodeMany c n bytes
    some (a :: as, bytes)

theorem decodeMany_encode (c : Codec α) {as : List α} (h : ∀ a ∈ as, c.Valid a)
    (rest : List UInt8) :
    c.decodeMany as.length (as.flatMap c.encode ++ rest) = some (as, rest) := by
  induction as with
  | nil => rfl
  | cons a as ih =>
    obtain ⟨ha, has⟩ := List.forall_mem_cons.mp h
    simp [decodeMany, List.append_assoc, c.decode_encode ha, ih has]

theorem encode_decodeMany (c : Codec α) {n : ℕ} {bytes rest : List UInt8} {as : List α}
    (h : c.decodeMany n bytes = some (as, rest)) :
    as.length = n ∧ (∀ a ∈ as, c.Valid a) ∧ bytes = as.flatMap c.encode ++ rest := by
  induction n generalizing bytes as with
  | zero =>
    obtain ⟨rfl, rfl⟩ := Prod.mk.inj (Option.some.inj h)
    exact ⟨rfl, by simp, rfl⟩
  | succ n ih =>
    obtain ⟨⟨a, mid⟩, hc, h⟩ := Option.bind_eq_some_iff.mp h
    obtain ⟨⟨as', _⟩, hmany, h⟩ := Option.bind_eq_some_iff.mp h
    obtain ⟨rfl, rfl⟩ := Prod.mk.inj (Option.some.inj h)
    obtain ⟨ha, rfl⟩ := c.encode_decode hc
    obtain ⟨hlength, has, rfl⟩ := ih hmany
    refine ⟨congrArg (· + 1) hlength, List.forall_mem_cons.mpr ⟨ha, has⟩, ?_⟩
    rw [List.flatMap_cons, List.append_assoc]

/-- The number of values, then the values. -/
def vec (count : Codec ℕ) (c : Codec α) : Codec (List α) where
  Valid as := count.Valid as.length ∧ ∀ a ∈ as, c.Valid a
  encode as := count.encode as.length ++ as.flatMap c.encode
  decode bytes := do
    let (n, bytes) ← count.decode bytes
    c.decodeMany n bytes
  decode_encode {as} h rest := by
    simp [List.append_assoc, count.decode_encode h.1, c.decodeMany_encode h.2]
  encode_decode {bytes as rest} h := by
    obtain ⟨⟨n, mid⟩, hcount, hmany⟩ := Option.bind_eq_some_iff.mp h
    obtain ⟨hn, rfl⟩ := count.encode_decode hcount
    obtain ⟨rfl, has, rfl⟩ := c.encode_decodeMany hmany
    exact ⟨⟨hn, has⟩, (List.append_assoc _ _ _).symm⟩

end Vectors

section Tags

/-- A value behind a fixed mark. -/
def tagged (tag : List UInt8) (c : Codec α) : Codec α where
  Valid := c.Valid
  encode a := tag ++ c.encode a
  decode bytes := if tag <+: bytes then c.decode (bytes.drop tag.length) else none
  decode_encode {a} ha rest := by
    rw [List.append_assoc, if_pos (List.prefix_append _ _), List.drop_left, c.decode_encode ha]
  encode_decode {bytes a rest} h := by
    split_ifs at h with htag
    obtain ⟨bytes, rfl⟩ := htag
    rw [List.drop_left] at h
    obtain ⟨ha, rfl⟩ := c.encode_decode h
    exact ⟨ha, (List.append_assoc _ _ _).symm⟩

/-- The marks of several kinds of values, all of one length and no two the same. -/
structure Tags (κ : Type) where
  kinds : List κ
  mem_kinds : ∀ k, k ∈ kinds
  width : ℕ
  tag : κ → List UInt8
  length_tag : ∀ k, (tag k).length = width
  tag_inj : ∀ k k', tag k = tag k' → k = k'

/-- The kind whose mark begins the bytes. -/
def Tags.find (tags : Tags κ) (bytes : List UInt8) : Option κ :=
  tags.kinds.find? fun k => decide (tags.tag k <+: bytes)

theorem Tags.find_eq_some_iff (tags : Tags κ) {bytes : List UInt8} {k : κ} :
    tags.find bytes = some k ↔ tags.tag k <+: bytes := by
  constructor
  · intro h
    simpa using List.find?_some h
  · intro h
    cases hfind : tags.find bytes with
    | none =>
      have hnot := List.find?_eq_none.mp hfind k (tags.mem_kinds k)
      simp [h] at hnot
    | some k' =>
      have h' : tags.tag k' <+: bytes := by simpa using List.find?_some hfind
      -- two marks of one length that begin the same bytes are the same
      have hlength : (tags.tag k).length = (tags.tag k').length :=
        (tags.length_tag k).trans (tags.length_tag k').symm
      have hsame := (List.prefix_of_prefix_length_le h h' hlength.le).eq_of_length hlength
      rw [tags.tag_inj k k' hsame]

/-- A value of one of several kinds, behind the mark of its kind. -/
def dispatch (tags : Tags κ) {γ : κ → Type} (c : ∀ k, Codec (γ k)) : Codec (Σ k, γ k) where
  Valid x := (c x.1).Valid x.2
  encode x := tags.tag x.1 ++ (c x.1).encode x.2
  decode bytes := do
    let k ← tags.find bytes
    let (a, bytes) ← (c k).decode (bytes.drop tags.width)
    some (⟨k, a⟩, bytes)
  decode_encode {x} hx rest := by
    have hfind := tags.find_eq_some_iff.mpr
      (List.prefix_append (tags.tag x.1) ((c x.1).encode x.2 ++ rest))
    rw [List.append_assoc, hfind]
    simp [← tags.length_tag x.1, (c x.1).decode_encode hx]
  encode_decode {bytes x rest} h := by
    obtain ⟨k, hfind, h⟩ := Option.bind_eq_some_iff.mp h
    obtain ⟨⟨a, _⟩, hc, h⟩ := Option.bind_eq_some_iff.mp h
    obtain ⟨rfl, rfl⟩ := Prod.mk.inj (Option.some.inj h)
    obtain ⟨bytes, rfl⟩ := tags.find_eq_some_iff.mp hfind
    rw [← tags.length_tag k, List.drop_left] at hc
    obtain ⟨ha, rfl⟩ := (c k).encode_decode hc
    exact ⟨ha, (List.append_assoc _ _ _).symm⟩

end Tags

end Codec
