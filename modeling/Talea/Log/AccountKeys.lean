import Talea.Log.AsOf
import Talea.Sql.Tables

/-!
# What is kept under account keys

Every store keeps accounts, balances and postings under the flat keys of the
accounts.  The keys are injective, so an entry or a row under the key of an
account is about that account and no other.
-/

namespace Talea

theorem escapeBook_of_plain {book : List Char} (hcolon : ':' ∉ book) (hslash : '\\' ∉ book) :
    escapeBook book = book := by
  induction book with
  | nil => rfl
  | cons c book ih =>
      obtain ⟨hc, hrest⟩ := List.ne_and_not_mem_of_not_mem_cons hcolon
      obtain ⟨hd, hlater⟩ := List.ne_and_not_mem_of_not_mem_cons hslash
      rw [escapeBook, if_neg (not_or.2 ⟨hc.symm, hd.symm⟩), ih hrest hlater]

/-- A book name without a colon or a backslash stands in the key as it is. -/
theorem AccountId.toKey_of_plain {account : AccountId}
    (hcolon : ':' ∉ account.book.name.toList) (hslash : '\\' ∉ account.book.name.toList) :
    account.toKey = account.book.name ++ ":" ++ account.path := by
  rw [toKey, escapeBook_of_plain hcolon hslash, ← String.toList_inj]
  simp

namespace Log

/-- What a posting leaves in a history, apart from its event. -/
def PostingEntry.moved (entry : PostingEntry) : Direction × Int :=
  (entry.direction, entry.minor)

theorem map_moved_entriesFrom (seq time : Int) (txid : TxId) (raw : Int)
    (postings : List Posting) :
    (entriesFrom seq time txid raw postings).map PostingEntry.moved =
      postings.map fun posting => (posting.direction, posting.amount.minor) := by
  induction postings generalizing raw with
  | nil => rfl
  | cons posting postings ih => rw [entriesFrom, List.map_cons, ih, List.map_cons]; rfl

/-- A history has one entry for each posting, in order. -/
theorem map_moved_historyFrom (key : String) (raw : Int) (events : List WireEvent) :
    (historyFrom key raw events).map PostingEntry.moved =
      (accountPostings key events).map fun posting =>
        (posting.direction, posting.amount.minor) := by
  induction events generalizing raw with
  | nil => rfl
  | cons wire events ih =>
      obtain ⟨txid, heq⟩ := historyFrom_cons key wire
      rw [heq, accountPostings_cons, List.map_append, List.map_append, map_moved_entriesFrom, ih]

end Log

/-- Keys are injective, are read back as book and path, and are the plain
concatenation for plain books.  So writing the entry of one account leaves the
entries of all others, a posting row lies under the key of an account exactly
when the posting is on it, and at every moment of a book of the log store the
entry under the key of an account is that of the account, with the history and
the balance of its own postings. -/
theorem accountKeys_separate :
    Function.Injective AccountId.toKey ∧
      (∀ account : AccountId, splitKey account.toKey.toList =
        some (account.book.name.toList, account.path.toList)) ∧
      (∀ account : AccountId, ':' ∉ account.book.name.toList → '\\' ∉ account.book.name.toList →
        account.toKey = account.book.name ++ ":" ++ account.path) ∧
      (∀ (ρ : Type) (rows : HashMap String ρ) (account other : AccountId) (row : ρ),
        other ≠ account →
          (rows.insert account.toKey row).lookup other.toKey = rows.lookup other.toKey) ∧
      (∀ tx seq time (account : AccountId) (idx : ℕ) (row : Sql.PostingRow) (posting : Posting),
        (Sql.postingRows tx seq time)[idx]? = some row → tx.postings[idx]? = some posting →
          (row.accountKey = account.toKey ↔ posting.account = account)) ∧
      ∀ rt (look : Log.BookLook) seen, look.view rt = some seen → ∀ account acct,
        seen.1.state.accounts.lookup (AccountId.toKey account) = some acct →
          acct.account.id = account ∧
            acct.rawBalance = Log.signedSum (Log.ownPostings account seen.2) ∧
            acct.postings.flat.map Log.PostingEntry.moved =
              (Log.ownPostings account seen.2).map fun posting =>
                (posting.direction, posting.amount.minor) := by
  refine ⟨AccountId.toKey_injective, fun account => ?_, fun account => AccountId.toKey_of_plain,
    fun ρ rows account other row hne => ?_, fun tx seq time account idx row posting hrow
      hposting => ?_, fun rt look seen hview account acct hacct => ?_⟩
  · rw [AccountId.toKey, String.toList_ofList, splitKey_escapeBook]
  · exact Finmap.lookup_insert_of_ne _ (AccountId.toKey_injective.ne hne)
  · rw [Sql.postingRows, List.getElem?_mapIdx, hposting] at hrow
    cases hrow
    exact AccountId.toKey_injective.eq_iff
  · have htells := (Log.BookLook.told_view hview).tells.known _ acct hacct
    refine ⟨AccountId.toKey_injective htells.key_eq, ?_, ?_⟩
    · rw [Log.ownPostings_eq, htells.rawBalance]
    · rw [htells.flat_eq, Log.map_moved_historyFrom, Log.ownPostings_eq]

/-- Two accounts that a plain concatenation would confuse, and an account of a
book. -/
theorem accountKeys_separate_colons :
    AccountId.toKey ⟨⟨"a:b"⟩, "c"⟩ ≠ AccountId.toKey ⟨⟨"a"⟩, "b:c"⟩ ∧
      AccountId.toKey ⟨⟨"onramp"⟩, "treasury:btc"⟩ = "onramp" ++ ":" ++ "treasury:btc" ∧
      Log.LeastBalance.account.account.id = Log.LeastBalance.revenue :=
  ⟨accountKeys_separate.1.ne (by decide),
    accountKeys_separate.2.2.1 ⟨⟨"onramp"⟩, "treasury:btc"⟩ (by decide) (by decide),
    (accountKeys_separate.2.2.2.2.2 Log.largeRuntime Log.LeastBalance.look _
      Log.LeastBalance.view_eq _ Log.LeastBalance.account (Option.some_get _).symm).1⟩

end Talea
