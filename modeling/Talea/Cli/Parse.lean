import Talea.Lib.Decimal
import Talea.Service.Post

/-!
# Postings on the command line

A posting is written `<account>:<asset>:<minor>` and read from the right, so
that the path of the account may contain colons.
-/

namespace Talea.Cli

open Decimal

/-! ## Splitting from the right -/

/-- What stands before and after the last separator. -/
def rsplitOnce (sep : Char) (text : List Char) : Option (List Char × List Char) :=
  if sep ∈ text then
    some ((text.reverse.dropWhile (· ≠ sep)).tail.reverse,
      (text.reverse.takeWhile (· ≠ sep)).reverse)
  else none

/-- At most `count` pieces from the right; the last one is what is left. -/
def rsplitn (count : ℕ) (sep : Char) (text : List Char) : List (List Char) :=
  match count with
  | 0 => []
  | 1 => [text]
  | count + 2 =>
      match rsplitOnce sep text with
      | none => [text]
      | some (before, after) => after :: rsplitn (count + 1) sep before

theorem rsplitOnce_eq_none {sep : Char} {text : List Char} :
    rsplitOnce sep text = none ↔ sep ∉ text := by
  unfold rsplitOnce
  split <;> simp_all

theorem rsplitOnce_append {sep : Char} {before after : List Char} (hafter : sep ∉ after) :
    rsplitOnce sep (before ++ sep :: after) = some (before, after) := by
  have hpass : ∀ c ∈ after.reverse, decide (c ≠ sep) = true := fun c hmem =>
    decide_eq_true fun hc => hafter (hc ▸ List.mem_reverse.1 hmem)
  have hdrop : ((sep :: before.reverse).dropWhile fun c => decide (c ≠ sep)) =
      sep :: before.reverse := List.dropWhile_cons_of_neg (by simp)
  have htake : ((sep :: before.reverse).takeWhile fun c => decide (c ≠ sep)) = [] :=
    List.takeWhile_cons_of_neg (by simp)
  have hreverse : (before ++ sep :: after).reverse = after.reverse ++ sep :: before.reverse := by
    simp
  unfold rsplitOnce
  rw [if_pos (by simp), hreverse, List.dropWhile_append_of_pos hpass,
    List.takeWhile_append_of_pos hpass, hdrop, htake, List.tail_cons, List.append_nil,
    List.reverse_reverse, List.reverse_reverse]

theorem rsplitOnce_eq_some {sep : Char} {text before after : List Char} :
    rsplitOnce sep text = some (before, after) ↔
      text = before ++ sep :: after ∧ sep ∉ after := by
  constructor
  · intro hsome
    have hmem : sep ∈ text := by
      by_contra hnot
      rw [rsplitOnce_eq_none.2 hnot] at hsome
      cases hsome
    -- the last separator is the first one of the reversed text
    obtain ⟨right, left, hreverse, hright⟩ :=
      List.eq_append_cons_of_mem (List.mem_reverse.2 hmem)
    have htext : text = left.reverse ++ sep :: right.reverse := by
      rw [← List.reverse_reverse text, hreverse]
      simp
    have hnot : sep ∉ right.reverse := fun hin => hright (List.mem_reverse.1 hin)
    rw [htext, rsplitOnce_append hnot, Option.some.injEq, Prod.mk.injEq] at hsome
    obtain ⟨rfl, rfl⟩ := hsome
    exact ⟨htext, hnot⟩
  · rintro ⟨rfl, hafter⟩
    exact rsplitOnce_append hafter

/-- Three pieces are found when the last two have no separator. -/
theorem rsplitn_three {sep : Char} {account asset minor : List Char} (hasset : sep ∉ asset)
    (hminor : sep ∉ minor) :
    rsplitn 3 sep (account ++ sep :: asset ++ sep :: minor) = [minor, asset, account] := by
  rw [rsplitn, rsplitOnce_append hminor]
  dsimp only
  rw [rsplitn, rsplitOnce_append hasset]
  rfl

/-- Three pieces are found in no other text. -/
theorem rsplitn_three_eq_some {sep : Char} {text account : List Char}
    (hthird : (rsplitn 3 sep text)[2]? = some account) :
    ∃ asset minor, text = account ++ sep :: asset ++ sep :: minor ∧ sep ∉ asset ∧
      sep ∉ minor := by
  rw [rsplitn] at hthird
  cases hlast : rsplitOnce sep text with
  | none =>
      rw [hlast] at hthird
      cases hthird
  | some split =>
      obtain ⟨before, minor⟩ := split
      obtain ⟨rfl, hminor⟩ := rsplitOnce_eq_some.1 hlast
      rw [hlast] at hthird
      dsimp only at hthird
      rw [rsplitn] at hthird
      cases hmiddle : rsplitOnce sep before with
      | none =>
          rw [hmiddle] at hthird
          cases hthird
      | some split =>
          obtain ⟨first, asset⟩ := split
          obtain ⟨rfl, hasset⟩ := rsplitOnce_eq_some.1 hmiddle
          rw [hmiddle] at hthird
          obtain rfl : first = account := Option.some.inj hthird
          exact ⟨asset, minor, rfl, hasset, hminor⟩

/-! ## Postings -/

/-- A piece that is there and not empty. -/
def nonEmpty (piece : Option (List Char)) : Option (List Char) :=
  piece.filter fun text => !text.isEmpty

theorem nonEmpty_eq_some {piece : Option (List Char)} {text : List Char} :
    nonEmpty piece = some text ↔ piece = some text ∧ text ≠ [] := by
  rw [nonEmpty, Option.filter_eq_some_iff]
  simp

/-- The draft of three pieces, once the last one is a number. -/
def postingDraft (account asset minor : List Char) (direction : Direction) :
    Except String Service.PostingDraft :=
  match hparse : parseI64 minor with
  | .error err => .error ("minor units: " ++ err.text)
  | .ok value =>
      .ok ⟨String.ofList account, ⟨value, String.ofList asset, (parseI64_eq_ok.1 hparse).2⟩,
        direction⟩

/-- Parse a posting from the right. -/
def parsePosting (s : String) (direction : Direction) : Except String Service.PostingDraft :=
  let pieces := rsplitn 3 ':' s.toList
  match nonEmpty pieces[0]? with
  | none => .error "empty posting"
  | some minor =>
      match nonEmpty pieces[1]? with
      | none => .error "missing asset (want <account>:<asset>:<minor>)"
      | some asset =>
          match nonEmpty pieces[2]? with
          | none => .error "missing account (want <account>:<asset>:<minor>)"
          | some account => postingDraft account asset minor direction

theorem postingDraft_eq_ok {account asset minor : List Char} {direction : Direction}
    {draft : Service.PostingDraft} :
    postingDraft account asset minor direction = .ok draft ↔
      IsLiteral minor draft.amount.minor ∧ draft.account = String.ofList account ∧
        draft.amount.asset = String.ofList asset ∧ draft.direction = direction := by
  unfold postingDraft
  constructor
  · intro hok
    split at hok
    · cases hok
    · next value hparse =>
        cases hok
        exact ⟨(parseI64_eq_ok.1 hparse).1, rfl, rfl, rfl⟩
  · obtain ⟨draftAccount, ⟨value, draftAsset, hrange⟩, draftDirection⟩ := draft
    rintro ⟨hliteral, haccount, hasset, hdirection⟩
    dsimp only at hliteral haccount hasset hdirection
    subst haccount hasset hdirection
    have hvalue := parseI64_eq_ok.2 ⟨hliteral, hrange⟩
    split
    · next err herr =>
        rw [hvalue] at herr
        cases herr
    · next found hfound =>
        obtain rfl : value = found := Except.ok.inj (hvalue.symm.trans hfound)
        rfl

/-- What is parsed are three pieces, the last one a literal. -/
theorem parsePosting_eq_ok {s : String} {direction : Direction} {draft : Service.PostingDraft} :
    parsePosting s direction = .ok draft ↔
      ∃ account asset minor, s.toList = account ++ ':' :: asset ++ ':' :: minor ∧
        account ≠ [] ∧ asset ≠ [] ∧ ':' ∉ asset ∧ IsLiteral minor draft.amount.minor ∧
        draft.account = String.ofList account ∧ draft.amount.asset = String.ofList asset ∧
        draft.direction = direction := by
  unfold parsePosting
  dsimp only
  constructor
  · intro hok
    cases hminor : nonEmpty (rsplitn 3 ':' s.toList)[0]? with
    | none => simp [hminor] at hok
    | some minor =>
        cases hasset : nonEmpty (rsplitn 3 ':' s.toList)[1]? with
        | none => simp [hminor, hasset] at hok
        | some asset =>
            cases haccount : nonEmpty (rsplitn 3 ':' s.toList)[2]? with
            | none => simp [hminor, hasset, haccount] at hok
            | some account =>
                simp only [hminor, hasset, haccount] at hok
                obtain ⟨hthird, hne⟩ := nonEmpty_eq_some.1 haccount
                obtain ⟨middle, last, htext, hmiddle, hlast⟩ := rsplitn_three_eq_some hthird
                rw [htext, rsplitn_three hmiddle hlast] at hminor hasset
                obtain ⟨hsecond, hassetNe⟩ := nonEmpty_eq_some.1 hasset
                obtain rfl : middle = asset := Option.some.inj hsecond
                obtain rfl : last = minor := Option.some.inj (nonEmpty_eq_some.1 hminor).1
                exact ⟨account, middle, last, htext, hne, hassetNe, hmiddle,
                  postingDraft_eq_ok.1 hok⟩
  · rintro ⟨account, asset, minor, htext, haccount, hasset, hsep, hdraft⟩
    have hminor : ':' ∉ minor := hdraft.1.not_mem rfl (by decide) (by decide)
    rw [htext, rsplitn_three hsep hminor]
    have hthree : nonEmpty (some minor) = some minor ∧ nonEmpty (some asset) = some asset ∧
        nonEmpty (some account) = some account :=
      ⟨nonEmpty_eq_some.2 ⟨rfl, hdraft.1.ne_nil⟩, nonEmpty_eq_some.2 ⟨rfl, hasset⟩,
        nonEmpty_eq_some.2 ⟨rfl, haccount⟩⟩
    simp only [List.getElem?_cons_zero, List.getElem?_cons_succ, hthree]
    exact postingDraft_eq_ok.2 hdraft

/-- A text is accepted exactly when it is an account, which may contain colons,
an asset without a colon and an `i64` literal, none of them empty, and then
these are returned.  The parts as they are printed are read back. -/
theorem parsePosting_grammar (direction : Direction) :
    (∀ s draft, parsePosting s direction = .ok draft ↔
      ∃ account asset minor : String, s = account ++ ":" ++ asset ++ ":" ++ minor ∧
        account ≠ "" ∧ asset ≠ "" ∧ ':' ∉ asset.toList ∧
        IsLiteral minor.toList draft.amount.minor ∧ draft.account = account ∧
        draft.amount.asset = asset ∧ draft.direction = direction) ∧
      ∀ account asset minor, account ≠ "" → asset ≠ "" → ':' ∉ asset.toList →
        ∀ hrange : I64.InRange minor,
          parsePosting (account ++ ":" ++ asset ++ ":" ++ toString minor) direction =
            .ok ⟨account, ⟨minor, asset, hrange⟩, direction⟩ := by
  have hcolon : ∀ account asset minor : String,
      (account ++ ":" ++ asset ++ ":" ++ minor).toList =
        account.toList ++ ':' :: asset.toList ++ ':' :: minor.toList := by
    intro account asset minor
    simp
  have hempty : ∀ text : String, text ≠ "" ↔ text.toList ≠ [] := fun text =>
    String.toList_eq_nil_iff.not.symm
  constructor
  · intro s draft
    rw [parsePosting_eq_ok]
    constructor
    · rintro ⟨account, asset, minor, htext, haccount, hasset, hsep, hdraft⟩
      refine ⟨String.ofList account, String.ofList asset, String.ofList minor, ?_, ?_⟩
      · rw [← String.toList_inj, hcolon]
        simpa using htext
      · rw [hempty, hempty]
        simpa using ⟨haccount, hasset, hsep, hdraft⟩
    · rintro ⟨account, asset, minor, rfl, haccount, hasset, hsep, hdraft⟩
      refine ⟨account.toList, asset.toList, minor.toList, hcolon .., (hempty _).1 haccount,
        (hempty _).1 hasset, hsep, ?_⟩
      rw [String.ofList_toList, String.ofList_toList]
      exact hdraft
  · intro account asset minor haccount hasset hsep hrange
    refine parsePosting_eq_ok.2 ⟨account.toList, asset.toList, (toString minor).toList, hcolon ..,
      (hempty _).1 haccount, (hempty _).1 hasset, hsep, isLiteral_toString minor, ?_⟩
    rw [String.ofList_toList, String.ofList_toList]
    exact ⟨rfl, rfl, rfl⟩

theorem parsePosting_grammar_treasury :
    parsePosting ("treasury:btc" ++ ":" ++ "USD" ++ ":" ++ toString (1000 : Int)) .debit =
      .ok ⟨"treasury:btc", ⟨1000, "USD", by decide⟩, .debit⟩ :=
  (parsePosting_grammar .debit).2 "treasury:btc" "USD" 1000 (by decide) (by decide) (by decide)
    (by decide)

end Talea.Cli
