import Talea.Lib.Codec
import Talea.Log.Runtime

/-!
# A runtime that can be run

Concrete functions in place of the libraries: a binary code of the events for
their JSON, CRC-32 as it is, and polynomial hashes of a key's characters for
the hasher.  With them runs of the store can be evaluated.
-/

namespace Talea.Log

namespace Codec

open Talea.Codec

def book : Talea.Codec Book :=
  string.retract Book.name (fun name => some ⟨name⟩) fun _ => rfl

def accountId : Talea.Codec AccountId :=
  (prod book string).retract (fun account => (account.book, account.path))
    (fun (book, path) => some ⟨book, path⟩) fun _ => rfl

def assetId : Talea.Codec AssetId :=
  string.retract AssetId.id (fun id => some ⟨id⟩) fun _ => rfl

/-- The network and the native id of a crypto asset. -/
def AssetClass.parts : AssetClass → Option (String × Option String)
  | .fiat => none
  | .crypto network nativeId => some (network.name, nativeId)

def AssetClass.ofParts : Option (String × Option String) → AssetClass
  | none => .fiat
  | some (name, nativeId) => .crypto ⟨name⟩ nativeId

def assetClass : Talea.Codec AssetClass :=
  (option (prod string (option string))).retract AssetClass.parts
    (fun parts => some (AssetClass.ofParts parts)) fun value => by cases value <;> rfl

def byte : Talea.Codec UInt8 :=
  nat.retract UInt8.toNat (fun value => some (UInt8.ofNat value)) fun value => by simp

def assetDef : Talea.Codec AssetDef :=
  (prod (prod assetId assetClass) (prod byte string)).retract
    (fun asset => ((asset.id, asset.assetClass), (asset.precision, asset.name)))
    (fun ((id, assetClass), (precision, name)) => some ⟨id, assetClass, precision, name⟩)
    fun _ => rfl

def accountKind : Talea.Codec AccountKind :=
  nat.retract AccountKind.ctorIdx
    (fun index => match index with
      | 0 => some .asset
      | 1 => some .liability
      | 2 => some .income
      | 3 => some .expense
      | 4 => some .equity
      | 5 => some .clearing
      | _ => none)
    fun value => by cases value <;> rfl

def accountDef : Talea.Codec AccountDef :=
  (prod accountId (prod assetId accountKind)).retract
    (fun account => (account.id, (account.asset, account.kind)))
    (fun (id, (asset, kind)) => some ⟨id, asset, kind⟩) fun _ => rfl

def direction : Talea.Codec Direction :=
  nat.retract Direction.ctorIdx
    (fun index => match index with
      | 0 => some .debit
      | 1 => some .credit
      | _ => none)
    fun value => by cases value <;> rfl

def accountCfg : Talea.Codec AccountCfg :=
  (prod (option direction) (option int)).retract
    (fun cfg => (cfg.normalSide, cfg.minBalance))
    (fun (normalSide, minBalance) => some ⟨normalSide, minBalance⟩) fun _ => rfl

/-- Reading an amount checks that it is an `i64`. -/
def amount : Talea.Codec Amount :=
  (prod int assetId).retract (fun amount => (amount.minor, amount.asset))
    (fun (minor, asset) =>
      if inRange : I64.InRange minor then some ⟨minor, asset, inRange⟩ else none)
    fun amount => by simp [amount.inRange]

def posting : Talea.Codec Posting :=
  (prod accountId (prod amount direction)).retract
    (fun posting => (posting.account, (posting.amount, posting.direction)))
    (fun (account, (amount, direction)) => some ⟨account, amount, direction⟩) fun _ => rfl

def externalRef : Talea.Codec ExternalRef :=
  (prod string string).retract (fun ref => (ref.kind, ref.value))
    (fun (kind, value) => some ⟨kind, value⟩) fun _ => rfl

def transaction : Talea.Codec Transaction :=
  (prod (prod nat book) (prod (prod (list posting) string)
    (prod (list externalRef) (prod string int)))).retract
    (fun tx => ((tx.id.uuid, tx.book), ((tx.postings, tx.idempotencyKey.key),
      (tx.externalRefs, (tx.metadata, tx.occurredAt)))))
    (fun ((uuid, book), ((postings, key), (externalRefs, (metadata, occurredAt)))) =>
      some ⟨⟨uuid⟩, book, postings, ⟨key⟩, externalRefs, metadata, occurredAt⟩)
    fun _ => rfl

def ledgerEvent : Talea.Codec LedgerEvent :=
  (sum transaction (sum (prod accountDef accountCfg) assetDef)).retract
    (fun event => match event with
      | .transactionPosted tx => .inl tx
      | .accountOpened account cfg => .inr (.inl (account, cfg))
      | .assetRegistered asset => .inr (.inr asset))
    (fun value => match value with
      | .inl tx => some (.transactionPosted tx)
      | .inr (.inl (account, cfg)) => some (.accountOpened account cfg)
      | .inr (.inr asset) => some (.assetRegistered asset))
    fun value => by cases value <;> rfl

def wireEvent : Talea.Codec WireEvent :=
  (prod (prod int int) ledgerEvent).retract (fun ev => ((ev.seq, ev.at'), ev.event))
    (fun ((seq, time), event) => some ⟨seq, time, event⟩) fun _ => rfl

end Codec

/-- One byte of the reflected CRC-32. -/
def crc32Byte (crc : UInt32) (byte : UInt8) : UInt32 :=
  (List.range 8).foldl
    (fun crc _ => if crc &&& 1 = 1 then (crc >>> 1) ^^^ 0xEDB88320 else crc >>> 1)
    (crc ^^^ byte.toUInt32)

def crc32 (bytes : List UInt8) : UInt32 :=
  bytes.foldl crc32Byte 0xFFFFFFFF ^^^ 0xFFFFFFFF

/-- Horner's scheme over the characters of a key. -/
def charHash (seed : UInt64) (key : String) : UInt64 :=
  key.toList.foldl (fun hash char => hash * seed + UInt64.ofNat char.toNat) 0

/-- Read an event that fills the whole payload. -/
def eventOfBytes (bytes : List UInt8) : Option WireEvent :=
  match Codec.wireEvent.decode bytes with
  | some (ev, []) => some ev
  | _ => none

/-- The runtime of these functions. -/
def binaryRuntime : Runtime where
  toVec := Codec.wireEvent.encode
  fromSlice := eventOfBytes
  crc32 := crc32
  bloomHash1 := charHash 31
  bloomHash2 := charHash 37
  fromSlice_toVec ev := by
    have hread := Codec.wireEvent.decode_encode ev []
    rw [List.append_nil] at hread
    rw [eventOfBytes, hread]

/-! ## Large amounts -/

/-- Write another event in the place of each one. -/
def Runtime.relabel (rt : Runtime) (relabel : WireEvent → WireEvent)
    (hrelabel : Function.Involutive relabel) : Runtime where
  toVec ev := rt.toVec (relabel ev)
  fromSlice bytes := (rt.fromSlice bytes).map relabel
  crc32 := rt.crc32
  bloomHash1 := rt.bloomHash1
  bloomHash2 := rt.bloomHash2
  fromSlice_toVec ev := by rw [rt.fromSlice_toVec, Option.map_some, hrelabel]

/-- Zero for the largest amount, and the other way round. -/
def swapMinor (minor : Int) : Int :=
  if minor = 0 then 9223372036854775807 else if minor = 9223372036854775807 then 0 else minor

theorem swapMinor_involutive : Function.Involutive swapMinor := by
  intro minor
  unfold swapMinor
  split
  · next hzero => simp [hzero]
  · next hnonzero =>
      split
      · next hmax => simp [hmax]
      · rfl

def Posting.swap (posting : Posting) : Posting :=
  { posting with
    amount := ⟨swapMinor posting.amount.minor, posting.amount.asset, by
      have hrange := posting.amount.inRange
      unfold I64.InRange at hrange ⊢
      unfold swapMinor
      split
      · omega
      · split <;> omega⟩ }

theorem Posting.swap_involutive : Function.Involutive Posting.swap := by
  rintro ⟨account, ⟨minor, asset, inRange⟩, direction⟩
  simp only [Posting.swap, swapMinor_involutive minor]

def WireEvent.swap (ev : WireEvent) : WireEvent :=
  match ev.event with
  | .transactionPosted tx =>
      { ev with event := .transactionPosted { tx with postings := tx.postings.map Posting.swap } }
  | _ => ev

theorem WireEvent.swap_involutive : Function.Involutive WireEvent.swap := by
  rintro ⟨seq, time, event⟩
  cases event with
  | transactionPosted tx =>
      simp [WireEvent.swap, Posting.swap_involutive.comp_self]
  | assetRegistered asset => rfl
  | accountOpened account cfg => rfl

/-- The code counts in bytes; with this runtime it has little to count for the
largest amount. -/
def largeRuntime : Runtime :=
  binaryRuntime.relabel WireEvent.swap WireEvent.swap_involutive

end Talea.Log
