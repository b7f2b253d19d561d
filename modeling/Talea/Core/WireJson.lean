import Talea.Lib.Json
import Talea.Lib.UtcTexts
import Talea.Core.Wire

/-!
# Outcomes as JSON

The JSON of what `post` answers: the committed transaction, or an error tagged
by its kind.  An item of a batch is one of the two without a tag of its own; its
reader tries the committed transaction first.
-/

namespace Talea

open Service (ApiError)

/-- The text of a time, which counts microseconds. -/
def timeText (time : ℤ) : String :=
  Rfc3339.utcText (time * 1000)

def readTime (text : String) : Option ℤ :=
  (Rfc3339.readUtc text).map fun nanos => nanos / 1000

theorem readTime_timeText (time : ℤ) : readTime (timeText time) = some time := by
  unfold readTime timeText
  rw [Rfc3339.readUtc_utcText, Option.map_some, Int.mul_ediv_cancel time (by decide)]

/-- What `post` answers for a committed transaction. -/
@[ext]
structure Posted where
  txId : String
  seq : ℤ
  at' : ℤ
  deduplicated : Bool
  inRange : I64.InRange seq

instance : DecidableEq Posted := fun left right =>
  decidable_of_iff (left.txId = right.txId ∧ left.seq = right.seq ∧ left.at' = right.at' ∧
    left.deduplicated = right.deduplicated) Posted.ext_iff.symm

namespace Posted

def record (posted : Posted) : List (String × Json) :=
  [("tx_id", .str posted.txId), ("seq", .int posted.seq), ("at", .str (timeText posted.at')),
    ("deduplicated", .bool posted.deduplicated)]

def toJson (posted : Posted) : Json :=
  .obj posted.record

def fromJson (json : Json) : Option Posted := do
  match ← Json.fields ["tx_id", "seq", "at", "deduplicated"] json with
  | [txId, seq, time, deduplicated] =>
      let txId ← txId.asString
      let seq ← seq.asI64
      let time ← readTime (← time.asString)
      let deduplicated ← deduplicated.asBool
      some ⟨txId, seq.val, time, deduplicated, seq.property⟩
  | _ => none

theorem fromJson_toJson (posted : Posted) : fromJson posted.toJson = some posted := by
  have hnodup : (posted.record.map Prod.fst).Nodup := by simp [record]
  have hfields : Json.fields ["tx_id", "seq", "at", "deduplicated"] (.obj posted.record) =
      some (posted.record.map Prod.snd) := Json.fields_obj hnodup
  unfold fromJson toJson
  rw [hfields]
  simp [record, Json.asString, Json.asBool, Json.asI64_int posted.inRange, readTime_timeText]

end Posted

end Talea

namespace Talea.Service.ApiError

/-- The tag of an error: the name of its kind in snake case. -/
def tag : ApiError → String
  | unbalanced .. => "unbalanced"
  | assetMismatch .. => "asset_mismatch"
  | invalidAmount .. => "invalid_amount"
  | unknownAsset .. => "unknown_asset"
  | unknownAccount .. => "unknown_account"
  | constraintViolation .. => "constraint_violation"
  | alreadyExists .. => "already_exists"
  | invalidDraft .. => "invalid_draft"
  | notFound .. => "not_found"
  | transport .. => "transport"
  | unauthorized => "unauthorized"
  | forbidden .. => "forbidden"
  | overloaded => "overloaded"
  | timeout => "timeout"
  | internal .. => "internal"

/-- The fields of an error. -/
def record : ApiError → List (String × Json)
  | unbalanced asset debit credit =>
      [("asset", .str asset), ("debit", .int debit), ("credit", .int credit)]
  | assetMismatch account accountAsset asset =>
      [("account", .str account), ("account_asset", .str accountAsset), ("asset", .str asset)]
  | invalidAmount amount => [("amount", .int amount)]
  | unknownAsset asset => [("asset", .str asset)]
  | unknownAccount account => [("account", .str account)]
  | constraintViolation account minBalance wouldBe =>
      [("account", .str account), ("min_balance", .int minBalance), ("would_be", .int wouldBe)]
  | alreadyExists what => [("what", .str what)]
  | invalidDraft field reason => [("field", .str field), ("reason", .str reason)]
  | notFound what => [("what", .str what)]
  | transport message => [("message", .str message)]
  | unauthorized => []
  | forbidden book => [("book", .str book)]
  | overloaded => []
  | timeout => []
  | internal message => [("message", .str message)]

def toJson (error : ApiError) : Json :=
  .obj (("error", .str error.tag) :: error.record)

/-- The numbers of an error are the `i64` the source declares them as. -/
def FitsI64 : ApiError → Prop
  | unbalanced _ debit credit => I64.InRange debit ∧ I64.InRange credit
  | invalidAmount amount => I64.InRange amount
  | constraintViolation _ minBalance wouldBe => I64.InRange minBalance ∧ I64.InRange wouldBe
  | _ => True

/-- The error of a tag, from the rest of its object. -/
def ofTag (tag : String) (content : Json) : Option ApiError :=
  match tag with
  | "unbalanced" => do
      match ← Json.fields ["asset", "debit", "credit"] content with
      | [asset, debit, credit] =>
          some (unbalanced (← asset.asString) (← debit.asI64).val (← credit.asI64).val)
      | _ => none
  | "asset_mismatch" => do
      match ← Json.fields ["account", "account_asset", "asset"] content with
      | [account, accountAsset, asset] =>
          some (assetMismatch (← account.asString) (← accountAsset.asString) (← asset.asString))
      | _ => none
  | "invalid_amount" => do
      match ← Json.fields ["amount"] content with
      | [amount] => some (invalidAmount (← amount.asI64).val)
      | _ => none
  | "unknown_asset" => oneText "asset" unknownAsset content
  | "unknown_account" => oneText "account" unknownAccount content
  | "constraint_violation" => do
      match ← Json.fields ["account", "min_balance", "would_be"] content with
      | [account, minBalance, wouldBe] =>
          some (constraintViolation (← account.asString) (← minBalance.asI64).val
            (← wouldBe.asI64).val)
      | _ => none
  | "already_exists" => oneText "what" alreadyExists content
  | "invalid_draft" => do
      match ← Json.fields ["field", "reason"] content with
      | [field, reason] => some (invalidDraft (← field.asString) (← reason.asString))
      | _ => none
  | "not_found" => oneText "what" notFound content
  | "transport" => oneText "message" transport content
  | "unauthorized" => bare unauthorized content
  | "forbidden" => oneText "book" forbidden content
  | "overloaded" => bare overloaded content
  | "timeout" => bare timeout content
  | "internal" => oneText "message" internal content
  | _ => none
where
  /-- A kind whose one field is a text. -/
  oneText (name : String) (kind : String → ApiError) (content : Json) : Option ApiError := do
    match ← Json.fields [name] content with
    | [text] => text.asString.map kind
    | _ => none
  /-- A kind without fields. -/
  bare (kind : ApiError) (content : Json) : Option ApiError :=
    (Json.fields [] content).map fun _ => kind

def fromJson (json : Json) : Option ApiError :=
  (Json.untag "error" json).bind fun (tag, content) => ofTag tag content

theorem record_nodup (error : ApiError) : (error.record.map Prod.fst).Nodup := by
  cases error <;> simp [record]

theorem error_not_mem_record (error : ApiError) : "error" ∉ error.record.map Prod.fst := by
  cases error <;> simp [record]

theorem ofTag_record (error : ApiError) (hfits : error.FitsI64) :
    ofTag error.tag (.obj error.record) = some error := by
  have hfields := Json.fields_obj error.record_nodup
  cases error with
  | unbalanced asset debit credit =>
      simp only [record, List.map_cons, List.map_nil] at hfields
      simp [tag, ofTag, record, hfields, Json.asString, Json.asI64_int hfits.1,
        Json.asI64_int hfits.2]
  | invalidAmount amount =>
      have hamount : I64.InRange amount := hfits
      simp only [record, List.map_cons, List.map_nil] at hfields
      simp [tag, ofTag, record, hfields, Json.asI64_int hamount]
  | constraintViolation account minBalance wouldBe =>
      simp only [record, List.map_cons, List.map_nil] at hfields
      simp [tag, ofTag, record, hfields, Json.asString, Json.asI64_int hfits.1,
        Json.asI64_int hfits.2]
  | _ =>
      simp only [record, List.map_cons, List.map_nil] at hfields
      simp [tag, ofTag, ofTag.oneText, ofTag.bare, record, hfields, Json.asString]

theorem fromJson_toJson (error : ApiError) (hfits : error.FitsI64) :
    fromJson error.toJson = some error := by
  unfold fromJson toJson
  rw [Json.untag_obj _ error.error_not_mem_record, Option.bind_some]
  exact error.ofTag_record hfits

/-- The object of an error lacks the fields of a committed transaction. -/
theorem posted_fromJson_toJson (error : ApiError) : Posted.fromJson error.toJson = none := by
  have hmissing : "tx_id" ∉ (("error", Json.str error.tag) :: error.record).map Prod.fst := by
    cases error <;> simp [record]
  have hnames : "tx_id" ∈ ["tx_id", "seq", "at", "deduplicated"] := List.mem_cons_self
  unfold Posted.fromJson toJson
  rw [Json.fields_missing hnames hmissing]
  rfl

end Talea.Service.ApiError

namespace Talea

open Service (ApiError)

/-- One item of the answer to a batch. -/
inductive BatchItem
  | ok (posted : Posted)
  | err (error : ApiError)
  deriving DecidableEq

namespace BatchItem

def toJson : BatchItem → Json
  | ok posted => posted.toJson
  | err error => error.toJson

/-- The committed transaction is tried first. -/
def fromJson (json : Json) : Option BatchItem :=
  ((Posted.fromJson json).map ok).or ((ApiError.fromJson json).map err)

def FitsI64 : BatchItem → Prop
  | ok _ => True
  | err error => error.FitsI64

theorem fromJson_toJson (item : BatchItem) (hfits : item.FitsI64) :
    fromJson item.toJson = some item := by
  cases item with
  | ok posted =>
      unfold fromJson toJson
      rw [posted.fromJson_toJson]
      rfl
  | err error =>
      unfold fromJson toJson
      rw [error.posted_fromJson_toJson, error.fromJson_toJson hfits]
      rfl

/-- The items of an answer's body. -/
def listFromJson : Json → Option (List BatchItem)
  | .arr items => items.mapM fromJson
  | _ => none

def listToJson (items : List BatchItem) : Json :=
  .arr (items.map toJson)

theorem listFromJson_listToJson {items : List BatchItem} (hfits : ∀ item ∈ items, item.FitsI64) :
    listFromJson (listToJson items) = some items := by
  show (items.map toJson).mapM fromJson = some items
  induction items with
  | nil => rfl
  | cons item items ih =>
      rw [List.map_cons, List.mapM_cons, item.fromJson_toJson (hfits item List.mem_cons_self),
        ih fun other hmem => hfits other (List.mem_cons_of_mem _ hmem)]
      rfl

end BatchItem

end Talea
