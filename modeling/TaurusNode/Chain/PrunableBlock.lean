import Mathlib
import TaurusNode.Lib.Bytes
import TaurusNode.Lib.RawPack

/-!
# Blocks whose transactions can be pruned

The `signed_block` of block log version 4 (libraries/chain/block.hpp, transaction.hpp): a header,
a `prune_state`, the transaction receipts and the block extensions. A receipt holds either the id
of a transaction or a `packed_transaction`, whose `prunable_data` holds its signatures and context
free data in one of four forms, `none` among them: only the digest of what was pruned.

Each type packs field by field (`packer`); the header, the receipt header, the signatures and the
extensions are packed by packers the model takes as given (`BlockFormat`), with `sha256` and the
id a packed transaction's bytes unpack to.

A block is written into the log padded to `maximum_pruned_pack_size`, the most bytes it can take
once pruned. So pruning in place stays inside the padded entry because:

* a block packs into no more than `maximum_pruned_pack_size` (`SignedBlock.size_le`);
* pruning does not raise it (`pruneBlock_maximumPrunedPackSize_le`): `prune_all` turns
  `full_legacy` into `none`, padded to the same 32 bytes.

`prune_trxs` prunes, receipt by receipt, each packed transaction whose id is still in `ids`,
and erases the id from `ids` as it goes (`pruneReceipts`). When the block's packed transactions
have distinct ids, that is the same as pruning every listed one at once (`pruneReceipts_eq`), and
what is left of `ids` is `ids` less the pruned ids. Pruning keeps the digest of every receipt
(`digest_pruneIfListed`): `none` keeps the digest of what it replaced.
-/

namespace Eosio.Chain

open RawPack

/-- `fc::sha256`, the type of `digest_type` and `transaction_id_type`: 32 bytes. -/
structure Sha256 where
  bytes : List UInt8
  length_bytes : bytes.length = 32

namespace Sha256

/-- Two digests are equal when their bytes are. -/
instance : DecidableEq Sha256 := fun a b =>
  decidable_of_iff (a.bytes = b.bytes) ⟨fun h => by cases a; cases b; cases h; rfl, fun h => by rw [h]⟩

/-- A `sha256` packs as its 32 bytes. -/
def packer : Packer Sha256 :=
  (Packer.fixed 32).map (fun l => ⟨l.1, l.2⟩) (fun d => ⟨d.bytes, d.length_bytes⟩) (fun _ => rfl)

@[simp] theorem size_packer (d : Sha256) : packer.size d = 32 := d.length_bytes

end Sha256

/-- `digest_pack_size`. -/
def digestPackSize : ℕ := 32

/-- `packed_transaction_v0::compression_type`. -/
inductive CompressionType
  | none
  | zlib
deriving DecidableEq, Repr

namespace CompressionType

def code : CompressionType → UInt8
  | .none => 0
  | .zlib => 1

def ofCode (b : UInt8) : Option CompressionType :=
  if b = 0 then some .none else if b = 1 then some .zlib else none

/-- `fc::enum_type<uint8_t, compression_type>`: one byte. -/
def packer : Packer CompressionType :=
  Packer.enum code ofCode (by intro c; cases c <;> rfl)

end CompressionType

/-- `signed_block::prune_state_type`. -/
inductive PruneStateType
  | incomplete
  | complete
  | completeLegacy
deriving DecidableEq, Repr

namespace PruneStateType

def code : PruneStateType → UInt8
  | .incomplete => 0
  | .complete => 1
  | .completeLegacy => 2

def ofCode (b : UInt8) : Option PruneStateType :=
  if b = 0 then some .incomplete else if b = 1 then some .complete
  else if b = 2 then some .completeLegacy else none

/-- `fc::enum_type<uint8_t, prune_state_type>`: one byte. -/
def packer : Packer PruneStateType :=
  Packer.enum code ofCode (by intro s; cases s <;> rfl)

end PruneStateType

/-- What the blocks here take from outside: the packings of a block header
(`signed_block_header`), of a receipt's header (`transaction_receipt_header`: status, CPU and
NET usage), of a signature and of the block extensions; the block number a header carries;
`sha256` over bytes; and the id of the transaction that a packed transaction's bytes unpack to
(`packed_transaction::reflector_init`). A packed header holds the previous block's id at byte 14,
whose first four bytes are that block's number big-endian (`block_log_data::block_num_at`). -/
structure BlockFormat (H RH Sig Ext : Type) where
  header : Packer H
  receiptHeader : Packer RH
  signature : Packer Sig
  extensions : Packer Ext
  blockNum : H → UInt32
  hash : List UInt8 → Sha256
  transactionId : CompressionType → List UInt8 → Sha256
  blockNum_pack : ∀ h rest,
    UInt32.ofNat (Bytes.ofListLE (Bytes.readAt (header.pack h ++ rest) 14 4).reverse) + 1 = blockNum h

variable {H RH Sig Ext : Type} (F : BlockFormat H RH Sig Ext)

/-- `packed_transaction::prunable_data_type`, in the order of its variant. -/
inductive PrunableData (Sig : Type)
  | fullLegacy (signatures : List Sig) (packedContextFreeData : List UInt8)
  | none (digest : Sha256)
  /-- The source's `partial`: some context free segments replaced by their digest. -/
  | partlyPruned (signatures : List Sig) (contextFreeSegments : List (Sha256 ⊕ List UInt8))
  | full (signatures : List Sig) (contextFreeSegments : List (List UInt8))

/-- `packed_transaction`: the compression, the prunable data and the packed transaction. -/
structure PackedTransaction (Sig : Type) where
  compression : CompressionType
  prunableData : PrunableData Sig
  packedTrx : List UInt8

/-- `transaction_receipt`: its header, then a transaction id or a packed transaction. -/
structure TransactionReceipt (RH Sig : Type) where
  header : RH
  trx : Sha256 ⊕ PackedTransaction Sig

/-- `signed_block`. -/
structure SignedBlock (H RH Sig Ext : Type) where
  header : H
  pruneState : PruneStateType
  transactions : List (TransactionReceipt RH Sig)
  blockExtensions : Ext

/-! ### Packing -/

namespace PrunableData

/-- The variant's index, then the fields of the alternative (`full_legacy` packs its signatures
and its packed context free data; the segments are unpacked from the latter). -/
def packer : Packer (PrunableData Sig) where
  pack
    | .fullLegacy s c => varintBytes 0 ++ (F.signature.list.prod Packer.bytes).pack (s, c)
    | .none d => varintBytes 1 ++ Sha256.packer.pack d
    | .partlyPruned s c =>
      varintBytes 2 ++ (F.signature.list.prod (Sha256.packer.sum Packer.bytes).list).pack (s, c)
    | .full s c => varintBytes 3 ++ (F.signature.list.prod Packer.bytes.list).pack (s, c)
  unpack bs := (readVarint bs).bind fun x =>
    match x.1 with
    | 0 => ((F.signature.list.prod Packer.bytes).unpack x.2).map
      (Prod.map (fun f => .fullLegacy f.1 f.2) id)
    | 1 => (Sha256.packer.unpack x.2).map (Prod.map .none id)
    | 2 => ((F.signature.list.prod (Sha256.packer.sum Packer.bytes).list).unpack x.2).map
      (Prod.map (fun f => .partlyPruned f.1 f.2) id)
    | 3 => ((F.signature.list.prod Packer.bytes.list).unpack x.2).map
      (Prod.map (fun f => .full f.1 f.2) id)
    | _ => Option.none
  unpack_pack p rest := by
    -- every alternative: the index reads back, then the alternative's own packer does
    cases p <;>
    · rw [List.append_assoc, readVarint_varintBytes, Option.bind_some]
      dsimp only
      rw [Packer.unpack_pack, Option.map_some]
      rfl

@[simp] theorem size_fullLegacy (s : List Sig) (c : List UInt8) :
    (packer F).size (.fullLegacy s c) = 1 + (F.signature.list.size s + Packer.bytes.size c) := by
  show (varintBytes 0 ++ (F.signature.list.prod Packer.bytes).pack (s, c)).length = _
  rw [List.length_append, length_varintBytes_of_lt (show 0 < 128 by omega)]
  exact congrArg (1 + ·) (Packer.size_prod _ _ (s, c))

@[simp] theorem size_none (d : Sha256) : (packer F).size (.none d : PrunableData Sig) = 1 + 32 := by
  show (varintBytes 1 ++ Sha256.packer.pack d).length = _
  rw [List.length_append, length_varintBytes_of_lt (show 1 < 128 by omega)]
  exact congrArg (1 + ·) (Sha256.size_packer d)

/-- `padded_pack_size` of each alternative: `none` asserts its 32 bytes, `full_legacy` is padded
to them, and the other two are unimplemented and throw. -/
def paddedPackSize : PrunableData Sig → Option ℕ
  | .none d =>
    let result := Sha256.packer.size d
    if result = digestPackSize then some result else Option.none
  | .partlyPruned _ _ => Option.none
  | .full _ _ => Option.none
  | .fullLegacy s c => some (max (F.signature.list.size s + Packer.bytes.size c) digestPackSize)

/-- `prunable_data_type::maximum_pruned_pack_size`. -/
def maximumPrunedPackSize (p : PrunableData Sig) : Option ℕ :=
  (paddedPackSize F p).map (1 + ·)

/-- `prunable_digest` of each alternative, which `digest` visits: `none` holds it, `full_legacy`
hashes its signatures and packed context free data, the other two throw. -/
def prunableDigest : PrunableData Sig → Option Sha256
  | .none d => some d
  | .partlyPruned _ _ => Option.none
  | .full _ _ => Option.none
  | .fullLegacy s c => some (F.hash (F.signature.list.pack s ++ Packer.bytes.pack c))

/-- `prunable_data_type::prune_all`: `none` with the digest of what it replaces. -/
def pruneAll (p : PrunableData Sig) : Option (PrunableData Sig) :=
  (prunableDigest F p).map .none

theorem maximumPrunedPackSize_eq_some {p : PrunableData Sig} {m : ℕ}
    (h : maximumPrunedPackSize F p = some m) :
    (∃ s c, p = .fullLegacy s c ∧ m = 1 + max (F.signature.list.size s + Packer.bytes.size c) 32) ∨
      (∃ d, p = .none d ∧ m = 1 + 32) := by
  cases p with
  | fullLegacy s c =>
    simp only [maximumPrunedPackSize, paddedPackSize, Option.map_some, Option.some.injEq] at h
    exact .inl ⟨s, c, rfl, h.symm⟩
  | none d =>
    simp only [maximumPrunedPackSize, paddedPackSize, Sha256.size_packer, digestPackSize,
      if_true, Option.map_some, Option.some.injEq] at h
    exact .inr ⟨d, rfl, h.symm⟩
  | partlyPruned s c => simp [maximumPrunedPackSize, paddedPackSize] at h
  | full s c => simp [maximumPrunedPackSize, paddedPackSize] at h

/-- Prunable data packs into no more than its maximum pruned size. -/
theorem size_le {p : PrunableData Sig} {m : ℕ} (h : maximumPrunedPackSize F p = some m) :
    (packer F).size p ≤ m := by
  rcases maximumPrunedPackSize_eq_some F h with ⟨s, c, rfl, rfl⟩ | ⟨d, rfl, rfl⟩
  · rw [size_fullLegacy]
    omega
  · rw [size_none]

/-- Data that has a maximum pruned size can be pruned, into `none` of its digest. -/
theorem pruneAll_of_maximumPrunedPackSize {p : PrunableData Sig} {m : ℕ}
    (h : maximumPrunedPackSize F p = some m) :
    ∃ d, prunableDigest F p = some d ∧ pruneAll F p = some (.none d) := by
  rcases maximumPrunedPackSize_eq_some F h with ⟨s, c, rfl, -⟩ | ⟨d, rfl, -⟩
  · exact ⟨_, rfl, rfl⟩
  · exact ⟨d, rfl, rfl⟩

/-- Pruned data is `none`, padded to the same 32 bytes as the smallest data that has a size. -/
theorem maximumPrunedPackSize_pruneAll {p p' : PrunableData Sig} {m : ℕ}
    (h : maximumPrunedPackSize F p = some m) (hp : pruneAll F p = some p') :
    maximumPrunedPackSize F p' = some (1 + 32) ∧ 1 + 32 ≤ m := by
  obtain ⟨d, -, hd⟩ := pruneAll_of_maximumPrunedPackSize F h
  rw [hp, Option.some.injEq] at hd
  subst hd
  refine ⟨by simp [maximumPrunedPackSize, paddedPackSize, digestPackSize], ?_⟩
  rcases maximumPrunedPackSize_eq_some F h with ⟨s, c, -, rfl⟩ | ⟨d, -, rfl⟩ <;> omega

/-- Pruning keeps the digest. -/
theorem prunableDigest_pruneAll {p p' : PrunableData Sig} (hp : pruneAll F p = some p') :
    prunableDigest F p' = prunableDigest F p := by
  unfold pruneAll at hp
  obtain ⟨d, hd, rfl⟩ := Option.map_eq_some_iff.mp hp
  rw [hd]
  rfl

end PrunableData

namespace PackedTransaction

def packer : Packer (PackedTransaction Sig) :=
  (CompressionType.packer.prod ((PrunableData.packer F).prod Packer.bytes)).map
    (fun x => ⟨x.1, x.2.1, x.2.2⟩) (fun t => (t.compression, t.prunableData, t.packedTrx))
    (fun _ => rfl)

@[simp] theorem size_packer (t : PackedTransaction Sig) :
    (packer F).size t = 1 + ((PrunableData.packer F).size t.prunableData + Packer.bytes.size t.packedTrx) := by
  simp only [packer, Packer.size_map, Packer.size_prod, CompressionType.packer, Packer.size_enum]

/-- `packed_transaction::id`. -/
def id (t : PackedTransaction Sig) : Sha256 := F.transactionId t.compression t.packedTrx

/-- `packed_transaction::maximum_pruned_pack_size`. -/
def maximumPrunedPackSize (t : PackedTransaction Sig) : Option ℕ :=
  (t.prunableData.maximumPrunedPackSize F).map fun m =>
    CompressionType.packer.size t.compression + Packer.bytes.size t.packedTrx + m

/-- `packed_transaction::packed_digest`. -/
def packedDigest (t : PackedTransaction Sig) : Option Sha256 :=
  (t.prunableData.prunableDigest F).map fun d =>
    F.hash (CompressionType.packer.pack t.compression ++ Packer.bytes.pack t.packedTrx ++
      Sha256.packer.pack d)

theorem size_le {t : PackedTransaction Sig} {m : ℕ} (h : maximumPrunedPackSize F t = some m) :
    (packer F).size t ≤ m := by
  obtain ⟨m', hm', rfl⟩ := Option.map_eq_some_iff.mp h
  have := PrunableData.size_le F hm'
  rw [size_packer, CompressionType.packer, Packer.size_enum]
  omega

end PackedTransaction

namespace TransactionReceipt

def packer : Packer (TransactionReceipt RH Sig) :=
  (F.receiptHeader.prod (Sha256.packer.sum (PackedTransaction.packer F))).map
    (fun x => ⟨x.1, x.2⟩) (fun r => (r.header, r.trx)) (fun _ => rfl)

/-- `transaction_receipt::maximum_pruned_pack_size`: the header, the variant's index, and the id
or the packed transaction's maximum. -/
def maximumPrunedPackSize (r : TransactionReceipt RH Sig) : Option ℕ :=
  match r.trx with
  | .inl trxId => some (F.receiptHeader.size r.header + 1 + Sha256.packer.size trxId)
  | .inr t => (t.maximumPrunedPackSize F).map (F.receiptHeader.size r.header + 1 + ·)

/-- `transaction_receipt::digest`: the header, then the id or the packed transaction's digest. -/
def digest (r : TransactionReceipt RH Sig) : Option Sha256 :=
  match r.trx with
  | .inl trxId => some (F.hash (F.receiptHeader.pack r.header ++ Sha256.packer.pack trxId))
  | .inr t => (t.packedDigest F).map fun d =>
    F.hash (F.receiptHeader.pack r.header ++ Sha256.packer.pack d)

/-- The id of the packed transaction a receipt holds. -/
def packedId (r : TransactionReceipt RH Sig) : Option Sha256 :=
  match r.trx with
  | .inl _ => none
  | .inr t => some (t.id F)

theorem size_le {r : TransactionReceipt RH Sig} {m : ℕ} (h : maximumPrunedPackSize F r = some m) :
    (packer F).size r ≤ m := by
  rcases r with ⟨rh, trxId | t⟩
  · simp only [maximumPrunedPackSize, Option.some.injEq] at h
    subst h
    simp only [packer, Packer.size_map, Packer.size_prod, Packer.size_sum_inl]
    omega
  · obtain ⟨m', hm', rfl⟩ := Option.map_eq_some_iff.mp h
    have := PackedTransaction.size_le F hm'
    simp only [packer, Packer.size_map, Packer.size_prod, Packer.size_sum_inr]
    omega

end TransactionReceipt

namespace SignedBlock

def packer : Packer (SignedBlock H RH Sig Ext) :=
  (F.header.prod (PruneStateType.packer.prod ((TransactionReceipt.packer F).list.prod
    F.extensions))).map
    (fun x => ⟨x.1, x.2.1, x.2.2.1, x.2.2.2⟩)
    (fun b => (b.header, b.pruneState, b.transactions, b.blockExtensions)) (fun _ => rfl)

/-- `block_header::block_num`. -/
def blockNum (b : SignedBlock H RH Sig Ext) : UInt32 := F.blockNum b.header

/-- A packed block starts with its header, so its number is where `block_num_at` reads it. -/
theorem blockNum_packer (b : SignedBlock H RH Sig Ext) (rest : List UInt8) :
    UInt32.ofNat (Bytes.ofListLE (Bytes.readAt ((packer F).pack b ++ rest) 14 4).reverse) + 1 =
      b.blockNum F := by
  show UInt32.ofNat (Bytes.ofListLE (Bytes.readAt ((F.header.pack b.header ++ _) ++ rest) 14
    4).reverse) + 1 = _
  rw [List.append_assoc]
  exact F.blockNum_pack b.header _

/-- `signed_block::maximum_pruned_pack_size`. -/
def maximumPrunedPackSize (b : SignedBlock H RH Sig Ext) : Option ℕ :=
  (b.transactions.mapM (TransactionReceipt.maximumPrunedPackSize F)).map fun ms =>
    F.header.size b.header + PruneStateType.packer.size b.pruneState +
      (varintBytes b.transactions.length).length + ms.sum + F.extensions.size b.blockExtensions

/-- A block packs into no more than its maximum pruned size. -/
theorem size_le {b : SignedBlock H RH Sig Ext} {m : ℕ} (h : maximumPrunedPackSize F b = some m) :
    (packer F).size b ≤ m := by
  obtain ⟨ms, hms, rfl⟩ := Option.map_eq_some_iff.mp h
  have hrs := Packer.size_list_le (TransactionReceipt.packer F) _
    (fun _ _ => TransactionReceipt.size_le F) hms
  simp only [packer, Packer.size_map, Packer.size_prod]
  omega

end SignedBlock

/-! ### Pruning -/

/-- The receipt with its packed transaction's prunable data replaced. -/
def TransactionReceipt.withPrunable (r : TransactionReceipt RH Sig) (t : PackedTransaction Sig)
    (p : PrunableData Sig) : TransactionReceipt RH Sig :=
  { r with trx := .inr { t with prunableData := p } }

/-- The `pruner` of `prune_trxs` on one receipt: a packed transaction whose id is in `ids` is
pruned and its id erased from `ids`; the flag says whether it was. -/
def pruneReceipt (ids : List Sha256) (r : TransactionReceipt RH Sig) :
    Option (TransactionReceipt RH Sig × List Sha256 × Bool) :=
  match r.trx with
  | .inl _ => some (r, ids, false)
  | .inr t =>
    if t.id F ∈ ids then
      (t.prunableData.pruneAll F).map fun p => (r.withPrunable t p, ids.erase (t.id F), true)
    else some (r, ids, false)

/-- The loop of `prune_trxs` over the receipts, with `ids` and the count of pruned transactions
carried along. -/
def pruneReceipts (ids : List Sha256) :
    List (TransactionReceipt RH Sig) → Option (List (TransactionReceipt RH Sig) × List Sha256 × ℕ)
  | [] => some ([], ids, 0)
  | r :: rs => (pruneReceipt F ids r).bind fun x =>
    (pruneReceipts x.2.1 rs).map fun y => (x.1 :: y.1, y.2.1, (if x.2.2 then 1 else 0) + y.2.2)

/-- The block part of `prune_trxs`: the receipts pruned, and the block marked `incomplete` when
any was. -/
def pruneBlock (ids : List Sha256) (b : SignedBlock H RH Sig Ext) :
    Option (SignedBlock H RH Sig Ext × List Sha256 × ℕ) :=
  (pruneReceipts F ids b.transactions).map fun x =>
    ({ b with
      transactions := x.1
      pruneState := if 0 < x.2.2 then .incomplete else b.pruneState }, x.2.1, x.2.2)

/-- The receipt pruned when its packed transaction's id is listed, as it is otherwise. -/
def pruneIfListed (ids : List Sha256) (r : TransactionReceipt RH Sig) :
    Option (TransactionReceipt RH Sig) :=
  match r.trx with
  | .inl _ => some r
  | .inr t => if t.id F ∈ ids then (t.prunableData.pruneAll F).map (r.withPrunable t) else some r

/-- The ids of the packed transactions among `rs` that `ids` lists. -/
def listedIds (ids : List Sha256) (rs : List (TransactionReceipt RH Sig)) : List Sha256 :=
  (rs.filterMap (TransactionReceipt.packedId F)).filter (· ∈ ids)

section Listed

variable {F}

theorem pruneIfListed_erase {ids : List Sha256} {x : Sha256} {r : TransactionReceipt RH Sig}
    (hx : r.packedId F ≠ some x) : pruneIfListed F (ids.erase x) r = pruneIfListed F ids r := by
  rcases r with ⟨rh, trxId | t⟩
  · rfl
  · have hne : t.id F ≠ x := fun h => hx (by rw [← h]; rfl)
    simp only [pruneIfListed, List.mem_erase_of_ne hne]

theorem mapM_pruneIfListed_erase {ids : List Sha256} {x : Sha256}
    {rs : List (TransactionReceipt RH Sig)} (hx : x ∉ rs.filterMap (TransactionReceipt.packedId F)) :
    rs.mapM (pruneIfListed F (ids.erase x)) = rs.mapM (pruneIfListed F ids) := by
  induction rs with
  | nil => rfl
  | cons r rs ih =>
    have hr : r.packedId F ≠ some x := fun h => hx (List.mem_filterMap.mpr ⟨r, by simp, h⟩)
    have hrs : x ∉ rs.filterMap (TransactionReceipt.packedId F) := fun h =>
      hx (((List.sublist_cons_self r rs).filterMap _).subset h)
    rw [List.mapM_cons, List.mapM_cons, pruneIfListed_erase hr, ih hrs]

theorem listedIds_erase {ids : List Sha256} {x : Sha256} {rs : List (TransactionReceipt RH Sig)}
    (hx : x ∉ rs.filterMap (TransactionReceipt.packedId F)) :
    listedIds F (ids.erase x) rs = listedIds F ids rs := by
  unfold listedIds
  apply List.filter_congr
  intro y hy
  have hne : y ≠ x := fun h => hx (h ▸ hy)
  simp only [List.mem_erase_of_ne hne]

theorem listedIds_nil (ids : List Sha256) : listedIds F ids ([] : List (TransactionReceipt RH Sig)) = [] :=
  rfl

theorem listedIds_cons_of_unlisted {ids : List Sha256} {r : TransactionReceipt RH Sig}
    (rs : List (TransactionReceipt RH Sig)) (hr : ∀ x, r.packedId F = some x → x ∉ ids) :
    listedIds F ids (r :: rs) = listedIds F ids rs := by
  unfold listedIds
  rw [List.filterMap_cons]
  cases hx : r.packedId F with
  | none => rfl
  | some x => simp [hr x hx]

theorem listedIds_cons_of_listed {ids : List Sha256} {r : TransactionReceipt RH Sig} {x : Sha256}
    (rs : List (TransactionReceipt RH Sig)) (hx : r.packedId F = some x) (hmem : x ∈ ids) :
    listedIds F ids (r :: rs) = x :: listedIds F ids rs := by
  unfold listedIds
  rw [List.filterMap_cons, hx]
  simp [hmem]

/-- With distinct ids among the block's packed transactions, erasing each pruned id as the loop
goes is the same as pruning every listed transaction at once; what is left of `ids` is `ids` less
the pruned ids, one occurrence each. -/
theorem pruneReceipts_eq {ids : List Sha256} {rs rs' : List (TransactionReceipt RH Sig)}
    (hdistinct : (rs.filterMap (TransactionReceipt.packedId F)).Nodup)
    (hrs' : rs.mapM (pruneIfListed F ids) = some rs') :
    pruneReceipts F ids rs = some (rs', ids.diff (listedIds F ids rs), (listedIds F ids rs).length) := by
  induction rs generalizing ids rs' with
  | nil =>
    simp only [List.mapM_nil, Option.pure_def, Option.some.injEq] at hrs'
    subst hrs'
    simp [pruneReceipts, listedIds_nil]
  | cons r rs ih =>
    rw [List.mapM_cons] at hrs'
    simp only [Option.bind_eq_bind, Option.bind_eq_some_iff, Option.pure_def,
      Option.some.injEq] at hrs'
    obtain ⟨r', hr', rs'', hrs'', rfl⟩ := hrs'
    rw [List.filterMap_cons] at hdistinct
    rcases r with ⟨rh, trxId | t⟩
    · -- an id receipt: nothing to prune, `ids` unchanged
      simp only [pruneIfListed, Option.some.injEq] at hr'
      subst hr'
      have hunlisted : ∀ x, TransactionReceipt.packedId F ⟨rh, .inl trxId⟩ = some x → x ∉ ids := by
        intro x hx
        cases hx
      rw [listedIds_cons_of_unlisted rs hunlisted]
      simp only [pruneReceipts, pruneReceipt, Option.bind_some, ih hdistinct hrs'',
        Option.map_some, Bool.false_eq_true, if_false, Nat.zero_add]
    · have hpacked : TransactionReceipt.packedId F ⟨rh, .inr t⟩ = some (t.id F) := rfl
      rw [hpacked, List.nodup_cons] at hdistinct
      obtain ⟨hfresh, hdistinct⟩ := hdistinct
      by_cases hmem : t.id F ∈ ids
      · -- a listed packed transaction: pruned, its id erased, and the rest sees no difference
        simp only [pruneIfListed, if_pos hmem] at hr'
        obtain ⟨p, hp, rfl⟩ := Option.map_eq_some_iff.mp hr'
        rw [← mapM_pruneIfListed_erase hfresh] at hrs''
        rw [listedIds_cons_of_listed rs hpacked hmem, List.diff_cons, ← listedIds_erase hfresh]
        simp only [pruneReceipts, pruneReceipt, if_pos hmem, hp, Option.map_some,
          Option.bind_some, ih hdistinct hrs'', if_true, List.length_cons]
        rw [Nat.add_comm]
      · simp only [pruneIfListed, if_neg hmem, Option.some.injEq] at hr'
        subst hr'
        have hunlisted : ∀ x, TransactionReceipt.packedId F ⟨rh, .inr t⟩ = some x → x ∉ ids := by
          intro x hx
          rw [hpacked, Option.some.injEq] at hx
          exact hx ▸ hmem
        rw [listedIds_cons_of_unlisted rs hunlisted]
        simp only [pruneReceipts, pruneReceipt, if_neg hmem, Option.bind_some,
          ih hdistinct hrs'', Option.map_some, Bool.false_eq_true, if_false, Nat.zero_add]

end Listed

/-! ### What pruning keeps -/

/-- `r'` is `r`, or `r` with its packed transaction's prunable data pruned. -/
def PrunedFrom (r r' : TransactionReceipt RH Sig) : Prop :=
  r' = r ∨ ∃ t p, r.trx = .inr t ∧ t.prunableData.pruneAll F = some p ∧ r' = r.withPrunable t p

section Pruned

variable {F}

theorem pruneReceipt_prunedFrom {ids ids' : List Sha256} {r r' : TransactionReceipt RH Sig}
    {k : Bool} (h : pruneReceipt F ids r = some (r', ids', k)) : PrunedFrom F r r' := by
  unfold pruneReceipt at h
  split at h
  · cases h
    exact .inl rfl
  · next t ht =>
    split at h
    · obtain ⟨p, hp, hr'⟩ := Option.map_eq_some_iff.mp h
      cases hr'
      exact .inr ⟨t, p, ht, hp, rfl⟩
    · cases h
      exact .inl rfl

theorem pruneReceipts_forall₂ {ids ids' : List Sha256} {rs rs' : List (TransactionReceipt RH Sig)}
    {n : ℕ} (h : pruneReceipts F ids rs = some (rs', ids', n)) :
    List.Forall₂ (PrunedFrom F) rs rs' := by
  induction rs generalizing ids rs' ids' n with
  | nil =>
    cases h
    exact .nil
  | cons r rs ih =>
    simp only [pruneReceipts, Option.bind_eq_some_iff, Option.map_eq_some_iff] at h
    obtain ⟨⟨r', ids₁, k⟩, hr, ⟨rs'', ids₂, m⟩, hrs, hout⟩ := h
    cases hout
    exact .cons (pruneReceipt_prunedFrom hr) (ih hrs)

/-- A pruned receipt keeps its digest: `none` holds the digest of what it replaced. -/
theorem PrunedFrom.digest_eq {r r' : TransactionReceipt RH Sig} (h : PrunedFrom F r r') :
    r'.digest F = r.digest F := by
  rcases h with rfl | ⟨t, p, ht, hp, rfl⟩
  · rfl
  · have hd := PrunableData.prunableDigest_pruneAll F hp
    simp only [TransactionReceipt.digest, TransactionReceipt.withPrunable, ht,
      PackedTransaction.packedDigest, hd]

/-- A pruned receipt has a maximum pruned size, no larger than the one it had. -/
theorem PrunedFrom.maximumPrunedPackSize_le {r r' : TransactionReceipt RH Sig} {m : ℕ}
    (h : PrunedFrom F r r') (hm : r.maximumPrunedPackSize F = some m) :
    ∃ m', r'.maximumPrunedPackSize F = some m' ∧ m' ≤ m := by
  rcases h with rfl | ⟨t, p, ht, hp, rfl⟩
  · exact ⟨m, hm, le_rfl⟩
  · simp only [TransactionReceipt.maximumPrunedPackSize, ht] at hm
    obtain ⟨mt, hmt, rfl⟩ := Option.map_eq_some_iff.mp hm
    obtain ⟨mp, hmp, rfl⟩ := Option.map_eq_some_iff.mp hmt
    obtain ⟨hmp', hle⟩ := PrunableData.maximumPrunedPackSize_pruneAll F hmp hp
    have hmax : (r.withPrunable t p).maximumPrunedPackSize F = some (F.receiptHeader.size r.header +
        1 + (CompressionType.packer.size t.compression + Packer.bytes.size t.packedTrx + (1 + 32))) := by
      simp only [TransactionReceipt.maximumPrunedPackSize, TransactionReceipt.withPrunable,
        PackedTransaction.maximumPrunedPackSize, hmp', Option.map_some]
    exact ⟨_, hmax, by omega⟩

end Pruned

/-- Bounds that only go down along a pointwise relation keep a sum that only goes down. -/
theorem mapM_sum_le_of_forall₂ {α : Type} {R : α → α → Prop} {f : α → Option ℕ}
    (hf : ∀ a a' m, R a a' → f a = some m → ∃ m', f a' = some m' ∧ m' ≤ m) :
    ∀ {l l' : List α} {ms : List ℕ}, List.Forall₂ R l l' → l.mapM f = some ms →
      ∃ ms', l'.mapM f = some ms' ∧ ms'.sum ≤ ms.sum := by
  intro l l' ms hR
  induction hR generalizing ms with
  | nil =>
    intro h
    exact ⟨[], rfl, by simp⟩
  | cons hab _ ih =>
    intro h
    rw [List.mapM_cons] at h
    simp only [Option.bind_eq_bind, Option.bind_eq_some_iff, Option.pure_def,
      Option.some.injEq] at h
    obtain ⟨m, hm, ms₁, hms₁, rfl⟩ := h
    obtain ⟨m', hm', hle⟩ := hf _ _ _ hab hm
    obtain ⟨ms', hms', hsum⟩ := ih hms₁
    refine ⟨m' :: ms', ?_, ?_⟩
    · rw [List.mapM_cons, hm', hms']
      rfl
    · simp only [List.sum_cons]
      omega

section Block

variable {F}

/-- Pruning a block never raises its maximum pruned size: the block still fits the entry that
was padded for it. -/
theorem pruneBlock_maximumPrunedPackSize_le {ids ids' : List Sha256}
    {b b' : SignedBlock H RH Sig Ext} {m n : ℕ} (hm : b.maximumPrunedPackSize F = some m)
    (h : pruneBlock F ids b = some (b', ids', n)) :
    ∃ m', b'.maximumPrunedPackSize F = some m' ∧ m' ≤ m := by
  obtain ⟨⟨rs', ids₁, k⟩, hrs, hout⟩ := Option.map_eq_some_iff.mp h
  simp only [Prod.mk.injEq] at hout
  obtain ⟨rfl, -, -⟩ := hout
  obtain ⟨ms, hms, rfl⟩ := Option.map_eq_some_iff.mp hm
  have hlen : rs'.length = b.transactions.length := (pruneReceipts_forall₂ hrs).length_eq.symm
  obtain ⟨ms', hms', hsum⟩ := @mapM_sum_le_of_forall₂ _ _ (TransactionReceipt.maximumPrunedPackSize F)
    (fun _ _ _ hR hm => PrunedFrom.maximumPrunedPackSize_le hR hm) _ _ _ (pruneReceipts_forall₂ hrs) hms
  refine ⟨F.header.size b.header + 1 + (varintBytes rs'.length).length + ms'.sum +
    F.extensions.size b.blockExtensions, ?_, ?_⟩
  · simp only [SignedBlock.maximumPrunedPackSize, hms', Option.map_some, PruneStateType.packer,
      Packer.size_enum]
  · simp only [hlen, PruneStateType.packer, Packer.size_enum]
    omega

/-- Pruning keeps the header, so the block id, and the digest of every receipt. -/
theorem pruneBlock_keeps {ids ids' : List Sha256} {b b' : SignedBlock H RH Sig Ext} {n : ℕ}
    (h : pruneBlock F ids b = some (b', ids', n)) :
    b'.header = b.header ∧ b'.blockExtensions = b.blockExtensions ∧
      b'.transactions.map (TransactionReceipt.digest F) =
        b.transactions.map (TransactionReceipt.digest F) := by
  obtain ⟨⟨rs', ids₁, k⟩, hrs, hout⟩ := Option.map_eq_some_iff.mp h
  simp only [Prod.mk.injEq] at hout
  obtain ⟨rfl, -, -⟩ := hout
  refine ⟨rfl, rfl, ?_⟩
  -- receipt by receipt along the pruning
  have hdigest : ∀ {l l' : List (TransactionReceipt RH Sig)}, List.Forall₂ (PrunedFrom F) l l' →
      l'.map (TransactionReceipt.digest F) = l.map (TransactionReceipt.digest F) := by
    intro l l' hR
    induction hR with
    | nil => rfl
    | cons hab _ ih => rw [List.map_cons, List.map_cons, hab.digest_eq, ih]
  exact hdigest (pruneReceipts_forall₂ hrs)

/-- A block with a maximum pruned size can be pruned with any ids: `prune_all` never meets the
two forms that throw. -/
theorem pruneReceipts_isSome {rs : List (TransactionReceipt RH Sig)} {ms : List ℕ}
    (hms : rs.mapM (TransactionReceipt.maximumPrunedPackSize F) = some ms) (ids : List Sha256) :
    ∃ rs', rs.mapM (pruneIfListed F ids) = some rs' := by
  induction rs generalizing ms with
  | nil => exact ⟨[], rfl⟩
  | cons r rs ih =>
    rw [List.mapM_cons] at hms
    simp only [Option.bind_eq_bind, Option.bind_eq_some_iff, Option.pure_def,
      Option.some.injEq] at hms
    obtain ⟨m, hm, ms₁, hms₁, -⟩ := hms
    obtain ⟨rs', hrs'⟩ := ih hms₁
    -- the receipt itself: an id, an unlisted transaction, or data that prunes to `none`
    have hr : ∃ r', pruneIfListed F ids r = some r' := by
      rcases r with ⟨rh, trxId | t⟩
      · exact ⟨_, rfl⟩
      · simp only [pruneIfListed]
        split_ifs
        · simp only [TransactionReceipt.maximumPrunedPackSize] at hm
          obtain ⟨mt, hmt, -⟩ := Option.map_eq_some_iff.mp hm
          obtain ⟨mp, hmp, -⟩ := Option.map_eq_some_iff.mp hmt
          obtain ⟨d, -, hd⟩ := PrunableData.pruneAll_of_maximumPrunedPackSize F hmp
          exact ⟨_, by rw [hd, Option.map_some]⟩
        · exact ⟨_, rfl⟩
    obtain ⟨r', hr'⟩ := hr
    exact ⟨r' :: rs', by rw [List.mapM_cons, hr', hrs']; rfl⟩

/-- The loop of `prune_trxs` goes through on a block with a maximum pruned size, whatever the
ids. -/
theorem pruneReceipts_exists {rs : List (TransactionReceipt RH Sig)} {ms : List ℕ}
    (hms : rs.mapM (TransactionReceipt.maximumPrunedPackSize F) = some ms) (ids : List Sha256) :
    ∃ r, pruneReceipts F ids rs = some r := by
  induction rs generalizing ms ids with
  | nil => exact ⟨_, rfl⟩
  | cons r rs ih =>
    rw [List.mapM_cons] at hms
    simp only [Option.bind_eq_bind, Option.bind_eq_some_iff, Option.pure_def,
      Option.some.injEq] at hms
    obtain ⟨m, hm, ms₁, hms₁, -⟩ := hms
    have hr : ∃ x, pruneReceipt F ids r = some x := by
      rcases r with ⟨rh, trxId | t⟩
      · exact ⟨_, rfl⟩
      · simp only [pruneReceipt]
        split_ifs
        · simp only [TransactionReceipt.maximumPrunedPackSize] at hm
          obtain ⟨mt, hmt, -⟩ := Option.map_eq_some_iff.mp hm
          obtain ⟨mp, hmp, -⟩ := Option.map_eq_some_iff.mp hmt
          obtain ⟨d, -, hd⟩ := PrunableData.pruneAll_of_maximumPrunedPackSize F hmp
          exact ⟨_, by rw [hd, Option.map_some]⟩
        · exact ⟨_, rfl⟩
    obtain ⟨x, hx⟩ := hr
    obtain ⟨y, hy⟩ := ih hms₁ x.2.1
    exact ⟨_, by rw [pruneReceipts, hx, Option.bind_some, hy, Option.map_some]⟩

theorem pruneBlock_exists {b : SignedBlock H RH Sig Ext} {m : ℕ}
    (hm : b.maximumPrunedPackSize F = some m) (ids : List Sha256) :
    ∃ r, pruneBlock F ids b = some r := by
  obtain ⟨ms, hms, -⟩ := Option.map_eq_some_iff.mp hm
  obtain ⟨r, hr⟩ := pruneReceipts_exists hms ids
  exact ⟨_, by rw [pruneBlock, hr, Option.map_some]⟩

/-- With distinct ids among the block's packed transactions, `prune_trxs`'s loop prunes exactly
the listed ones, erases their ids from `ids` and counts them. -/
theorem pruneBlock_eq_of_nodup {b : SignedBlock H RH Sig Ext} {m : ℕ}
    (hm : b.maximumPrunedPackSize F = some m)
    (hdistinct : (b.transactions.filterMap (TransactionReceipt.packedId F)).Nodup)
    (ids : List Sha256) :
    ∃ rs', b.transactions.mapM (pruneIfListed F ids) = some rs' ∧
      pruneBlock F ids b = some ({ b with
        transactions := rs'
        pruneState := if 0 < (listedIds F ids b.transactions).length then .incomplete
          else b.pruneState }, ids.diff (listedIds F ids b.transactions),
        (listedIds F ids b.transactions).length) := by
  obtain ⟨ms, hms, -⟩ := Option.map_eq_some_iff.mp hm
  obtain ⟨rs', hrs'⟩ := pruneReceipts_isSome hms ids
  exact ⟨rs', hrs', by rw [pruneBlock, pruneReceipts_eq hdistinct hrs', Option.map_some]⟩

end Block

end Eosio.Chain
