import Talea.Core.Types
import Talea.Lib.Totals

/-!
# Double entry

A transaction is double entry when its amounts are positive and its debits in
each asset add up to its credits in that asset.
-/

namespace Talea

/-- Asset ids are ordered as their strings are. -/
instance : LinearOrder AssetId :=
  LinearOrder.lift' AssetId.id fun left right heq => by
    cases left
    cases right
    exact congrArg AssetId.mk heq

/-- What a posting adds to the given side of an asset. -/
def Posting.onSide (direction : Direction) (asset : AssetId) (posting : Posting) : Int :=
  if posting.direction = direction ∧ posting.amount.asset = asset then posting.amount.minor
  else 0

/-- The postings of an asset on one side, added up. -/
def sideTotal (direction : Direction) (asset : AssetId) (postings : List Posting) : Int :=
  (postings.map (Posting.onSide direction asset)).sum

section SideTotal

variable {direction : Direction} {asset : AssetId}

@[simp]
theorem sideTotal_nil : sideTotal direction asset [] = 0 := rfl

@[simp]
theorem sideTotal_cons (posting : Posting) (postings : List Posting) :
    sideTotal direction asset (posting :: postings) =
      posting.onSide direction asset + sideTotal direction asset postings := by
  simp [sideTotal]

@[simp]
theorem sideTotal_append (left right : List Posting) :
    sideTotal direction asset (left ++ right) =
      sideTotal direction asset left + sideTotal direction asset right := by
  simp [sideTotal]

theorem Posting.onSide_nonneg {posting : Posting} (hamount : 0 ≤ posting.amount.minor) :
    0 ≤ posting.onSide direction asset := by
  unfold onSide
  split
  · exact hamount
  · exact le_rfl

theorem sideTotal_nonneg (direction : Direction) (asset : AssetId) {postings : List Posting}
    (hamounts : ∀ posting ∈ postings, 0 ≤ posting.amount.minor) :
    0 ≤ sideTotal direction asset postings := by
  refine List.sum_nonneg fun amount hamount => ?_
  obtain ⟨posting, hposting, rfl⟩ := List.mem_map.1 hamount
  exact posting.onSide_nonneg (hamounts posting hposting)

/-- A posting of another asset adds nothing. -/
theorem Posting.onSide_of_ne {posting : Posting} (hne : posting.amount.asset ≠ asset) :
    posting.onSide direction asset = 0 :=
  if_neg fun h => hne h.2

end SideTotal

/-- The signed amount of a posting in an asset is what it adds to the debits
less what it adds to the credits. -/
theorem Posting.onSide_debit_sub_credit (posting : Posting) (asset : AssetId) :
    posting.onSide .debit asset - posting.onSide .credit asset =
      if posting.amount.asset = asset then posting.signed else 0 := by
  unfold onSide signed Direction.signed
  by_cases hasset : posting.amount.asset = asset
  · cases hdirection : posting.direction <;> simp [hasset]
  · simp [hasset]

namespace Transaction

/-- The amounts are positive, and debits and credits agree asset by asset. -/
structure DoubleEntry (tx : Transaction) : Prop where
  positive : ∀ posting ∈ tx.postings, 0 < posting.amount.minor
  balanced : ∀ asset, sideTotal .debit asset tx.postings = sideTotal .credit asset tx.postings

end Transaction

end Talea
