import Talea.Lib.Int64

/-!
# The ledger's domain types

Accounts, assets, postings and transactions as `talea-core` declares them.  An
amount carries the fact that its minor units are an `i64`.  Sequence numbers
are integers, and so are timestamps, counted in microseconds since the Unix
epoch, the resolution every store truncates to; a UUID is the number it is.
-/

namespace Talea

structure Book where
  name : String
  deriving DecidableEq

/-- Book names starting with an underscore belong to the ledger itself. -/
def Book.isReserved (book : Book) : Bool :=
  book.name.toList.head? = some '_'

structure AccountId where
  book : Book
  path : String
  deriving DecidableEq

/-- The book part of a key: `':'` and `'\\'` are escaped by a backslash. -/
def escapeBook : List Char → List Char
  | [] => []
  | c :: cs => if c = ':' ∨ c = '\\' then '\\' :: c :: escapeBook cs else c :: escapeBook cs

/-- Flat `book:path` key; the separator is the first unescaped colon. -/
def AccountId.toKey (account : AccountId) : String :=
  String.ofList (escapeBook account.book.name.toList ++ ':' :: account.path.toList)

structure AssetId where
  id : String
  deriving DecidableEq

structure Network where
  name : String
  deriving DecidableEq

inductive AssetClass
  | fiat
  | crypto (network : Network) (nativeId : Option String)
  deriving DecidableEq

structure AssetDef where
  id : AssetId
  assetClass : AssetClass
  precision : UInt8
  name : String
  deriving DecidableEq

structure Amount where
  minor : Int
  asset : AssetId
  inRange : I64.InRange minor
  deriving DecidableEq

inductive Direction
  | debit
  | credit
  deriving DecidableEq

inductive AccountKind
  | asset
  | liability
  | income
  | expense
  | equity
  | clearing
  deriving DecidableEq

structure AccountDef where
  id : AccountId
  asset : AssetId
  kind : AccountKind
  deriving DecidableEq

structure Posting where
  account : AccountId
  amount : Amount
  direction : Direction
  deriving DecidableEq

/-- What an amount on this side adds to a debit-positive balance. -/
def Direction.signed (direction : Direction) (minor : Int) : Int :=
  match direction with
  | .debit => minor
  | .credit => -minor

def Posting.signed (posting : Posting) : Int :=
  posting.direction.signed posting.amount.minor

structure ExternalRef where
  kind : String
  value : String
  deriving DecidableEq

structure TxId where
  uuid : ℕ
  deriving DecidableEq

structure IdempotencyKey where
  key : String
  deriving DecidableEq

/-- A transaction; `metadata` is the JSON text of the caller's value, which no
store looks into. -/
structure Transaction where
  id : TxId
  book : Book
  postings : List Posting
  idempotencyKey : IdempotencyKey
  externalRefs : List ExternalRef
  metadata : String
  occurredAt : Int
  deriving DecidableEq

/-! ## Account keys determine accounts -/

/-- Reading a key back: the escaped book up to the first unescaped colon, and
the path behind it. -/
def splitKey : List Char → Option (List Char × List Char)
  | [] => none
  | ':' :: path => some ([], path)
  | '\\' :: c :: cs => (splitKey cs).map fun (book, path) => (c :: book, path)
  | c :: cs => (splitKey cs).map fun (book, path) => (c :: book, path)

theorem splitKey_escapeBook (book path : List Char) :
    splitKey (escapeBook book ++ ':' :: path) = some (book, path) := by
  induction book with
  | nil => simp [escapeBook, splitKey]
  | cons c cs ih =>
      by_cases hc : c = ':' ∨ c = '\\'
      · simp [escapeBook, hc, splitKey, ih]
      · have hcolon : c ≠ ':' := fun h => hc (Or.inl h)
        have hslash : c ≠ '\\' := fun h => hc (Or.inr h)
        have hescape : escapeBook (c :: cs) = c :: escapeBook cs := by simp [escapeBook, hc]
        rw [hescape, List.cons_append, splitKey, ih]
        · rfl
        · intro h
          exact hcolon h
        · intro d ds h
          exact absurd h hslash

/-- Distinct accounts have distinct keys. -/
theorem AccountId.toKey_injective : Function.Injective AccountId.toKey := by
  intro left right heq
  have hlists := String.ofList_injective heq
  have hsplit := congrArg splitKey hlists
  rw [splitKey_escapeBook, splitKey_escapeBook] at hsplit
  obtain ⟨⟨leftBook⟩, leftPath⟩ := left
  obtain ⟨⟨rightBook⟩, rightPath⟩ := right
  simp only [Option.some.injEq, Prod.mk.injEq, String.toList_inj] at hsplit
  rw [hsplit.1, hsplit.2]

end Talea
