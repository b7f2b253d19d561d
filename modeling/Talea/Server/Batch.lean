import Talea.Client.Http
import Talea.Lib.Slots
import Talea.Server.Handlers

/-!
# Batches, slot by slot

The handler takes the drafts in scope out of a batch, submits them as one list,
and puts the answers back where their drafts stood.  The service submits the
drafts of the list at the same time, and answers in their order whatever order
they complete in.  The client decodes the array slot by slot.
-/

namespace Talea.Server

open Service

/-- The drafts in scope, which are those that reach the service. -/
def submitted (scope : TokenScope) (drafts : List TransactionDraft) : List TransactionDraft :=
  drafts.filter fun draft => scope.allowsWrite draft.book

/-- The place among the submitted drafts of the draft at a place of the batch. -/
def rank (scope : TokenScope) (drafts : List TransactionDraft) (place : ℕ) : ℕ :=
  (submitted scope (drafts.take place)).length

/-- What the loop over the drafts leaves in the slots. -/
def slotOf (scope : TokenScope) (draft : TransactionDraft) : Option BatchItem :=
  if scope.allowsWrite draft.book then none else some (.err (.forbidden draft.book))

def placed (scope : TokenScope) (drafts : List TransactionDraft) : List (ℕ × TransactionDraft) :=
  (drafts.zipIdx.filter fun item => scope.allowsWrite item.1.book).map Prod.swap

/-- The answers of the service to the submitted drafts, in the order in which the
posts complete that it runs for all of them at once. -/
def Completed (scope : TokenScope) (drafts : List TransactionDraft)
    (outcome : ℕ → TransactionDraft → Except ApiError Posted)
    (completions : List (ℕ × Except ApiError Posted)) : Prop :=
  completions.Perm (((submitted scope drafts).mapIdx outcome).mapIdx Prod.mk)

section Places

variable {scope : TokenScope} {drafts : List TransactionDraft}

theorem foldl_partitionDraft (scope : TokenScope) (drafts : List TransactionDraft) (more : ℕ) :
    drafts.zipIdx.foldl (partitionDraft scope) (List.replicate (drafts.length + more) none, []) =
      (drafts.map (slotOf scope) ++ List.replicate more none, placed scope drafts) := by
  induction drafts using List.reverseRecOn generalizing more with
  | nil => simp [placed]
  | append_singleton drafts draft ih =>
      have hlength : (drafts ++ [draft]).length + more = drafts.length + (more + 1) := by
        rw [List.length_append, List.length_singleton]
        omega
      have hset : ∀ item : Option BatchItem,
          (drafts.map (slotOf scope) ++ List.replicate (more + 1) none).set drafts.length item =
            drafts.map (slotOf scope) ++ item :: List.replicate more none := by
        intro item
        rw [List.set_append_right _ _ (by rw [List.length_map]), List.length_map, Nat.sub_self]
        rfl
      rw [hlength, List.zipIdx_append, List.foldl_append, ih (more + 1)]
      simp only [List.zipIdx_singleton, Nat.zero_add, List.foldl_cons, List.foldl_nil]
      unfold partitionDraft placed
      rw [List.zipIdx_append, List.filter_append, List.map_append, List.map_append]
      simp only [List.zipIdx_singleton, Nat.zero_add, hset]
      cases hallows : scope.allowsWrite draft.book with
      | true => simp [hallows, slotOf, List.replicate_succ]
      | false => simp [hallows, slotOf]

theorem map_snd_placed : (placed scope drafts).map Prod.snd = submitted scope drafts := by
  have hfst : drafts.zipIdx.map Prod.fst = drafts := by rw [List.zipIdx_map_fst]
  unfold placed submitted
  rw [List.map_map]
  conv_rhs => rw [← hfst, List.filter_map]
  rfl

theorem length_placed : (placed scope drafts).length = (submitted scope drafts).length := by
  rw [← map_snd_placed, List.length_map]

theorem mem_placed {place : ℕ} {draft : TransactionDraft} :
    (place, draft) ∈ placed scope drafts ↔
      drafts[place]? = some draft ∧ scope.allowsWrite draft.book = true := by
  unfold placed
  rw [List.mem_map]
  constructor
  · rintro ⟨⟨found, index⟩, hmem, heq⟩
    cases heq
    obtain ⟨hzip, hallows⟩ := List.mem_filter.1 hmem
    exact ⟨List.mk_mem_zipIdx_iff_getElem?.1 hzip, hallows⟩
  · rintro ⟨hdraft, hallows⟩
    exact ⟨(draft, place), List.mem_filter.2 ⟨List.mk_mem_zipIdx_iff_getElem?.2 hdraft, hallows⟩,
      rfl⟩

theorem nodup_placed : ((placed scope drafts).map Prod.fst).Nodup := by
  unfold placed
  rw [List.map_map]
  have hsub : ((drafts.zipIdx.filter fun item => scope.allowsWrite item.1.book).map Prod.snd).Sublist
      (drafts.zipIdx.map Prod.snd) := List.filter_sublist.map _
  rw [List.zipIdx_map_snd] at hsub
  exact hsub.nodup (List.nodup_range')

/-- What passes a filter stands behind as many others as passed before it. -/
theorem getElem?_filter_length {α : Type} {p : α → Bool} {items : List α} {place : ℕ} {item : α}
    (hitem : items[place]? = some item) (hp : p item = true) :
    (items.filter p)[((items.take place).filter p).length]? = some item := by
  obtain ⟨hlt, hget⟩ := List.getElem?_eq_some_iff.1 hitem
  have hsplit : items = items.take place ++ item :: items.drop (place + 1) := by
    rw [← hget, List.cons_getElem_drop_succ, List.take_append_drop]
  have hfilter : items.filter p =
      (items.take place).filter p ++ item :: (items.drop (place + 1)).filter p := by
    conv_lhs => rw [hsplit]
    rw [List.filter_append, List.filter_cons_of_pos hp]
  rw [hfilter, List.getElem?_append_right le_rfl, Nat.sub_self]
  rfl

/-- A draft in scope stands at its rank among the submitted ones. -/
theorem getElem?_placed {place : ℕ} {draft : TransactionDraft} (hdraft : drafts[place]? = some draft)
    (hallows : scope.allowsWrite draft.book = true) :
    (placed scope drafts)[rank scope drafts place]? = some (place, draft) := by
  have hzip : drafts.zipIdx[place]? = some (draft, place) := by
    rw [List.getElem?_zipIdx, hdraft]
    simp
  have hrank : ((drafts.zipIdx.take place).filter fun item =>
      scope.allowsWrite item.1.book).length = rank scope drafts place := by
    unfold rank submitted
    have htake : drafts.take place = (drafts.zipIdx.take place).map Prod.fst := by
      rw [List.map_take, List.zipIdx_map_fst]
    rw [htake, List.filter_map, List.length_map]
    rfl
  have hfilter := getElem?_filter_length (p := fun item => scope.allowsWrite item.1.book) hzip hallows
  rw [hrank] at hfilter
  unfold placed
  rw [List.getElem?_map, hfilter]
  rfl

theorem fillSlots_eq (slots : List (Option BatchItem)) (inScope : List (ℕ × TransactionDraft))
    (results : List (Except ApiError Posted)) :
    fillSlots slots inScope results =
      Slots.fill slots ((inScope.map Prod.fst).zip (results.map batchItem)) := by
  unfold fillSlots Slots.fill
  rw [List.zip_map, List.foldl_map]
  rfl

theorem length_fillSlots (slots : List (Option BatchItem)) (inScope : List (ℕ × TransactionDraft))
    (results : List (Except ApiError Posted)) :
    (fillSlots slots inScope results).length = slots.length := by
  rw [fillSlots_eq, Slots.length_fill]

/-- The slot of a draft, when the submitted drafts are answered one by one. -/
theorem getElem?_fillSlots {outcome : ℕ → TransactionDraft → Except ApiError Posted} {place : ℕ}
    {draft : TransactionDraft} (hdraft : drafts[place]? = some draft) :
    (fillSlots (drafts.map (slotOf scope)) (placed scope drafts)
        ((submitted scope drafts).mapIdx outcome))[place]? =
      some (some (if scope.allowsWrite draft.book then
        batchItem (outcome (rank scope drafts place) draft)
      else .err (.forbidden draft.book))) := by
  obtain ⟨hlt, -⟩ := List.getElem?_eq_some_iff.1 hdraft
  have hlengths : ((placed scope drafts).map Prod.fst).length =
      (((submitted scope drafts).mapIdx outcome).map batchItem).length := by
    simp [length_placed]
  rw [fillSlots_eq]
  cases hallows : scope.allowsWrite draft.book with
  | false =>
      have hnot : place ∉ (((placed scope drafts).map Prod.fst).zip
          (((submitted scope drafts).mapIdx outcome).map batchItem)).map Prod.fst := by
        rw [List.map_fst_zip hlengths.le]
        intro hmem
        obtain ⟨⟨index, found⟩, hfound, rfl⟩ := List.mem_map.1 hmem
        obtain ⟨hget, hfits⟩ := mem_placed.1 hfound
        rw [hdraft] at hget
        cases hget
        rw [hallows] at hfits
        cases hfits
      rw [Slots.getElem?_fill_of_not_mem hnot, List.getElem?_map, hdraft, Option.map_some, slotOf,
        hallows]
      rfl
  | true =>
      have hplaced := getElem?_placed hdraft hallows
      have hdraftAt : (submitted scope drafts)[rank scope drafts place]? = some draft := by
        rw [← map_snd_placed, List.getElem?_map, hplaced]
        rfl
      have hnodup : ((((placed scope drafts).map Prod.fst).zip
          (((submitted scope drafts).mapIdx outcome).map batchItem)).map Prod.fst).Nodup := by
        rw [List.map_fst_zip hlengths.le]
        exact nodup_placed
      have hmem : (place, batchItem (outcome (rank scope drafts place) draft)) ∈
          ((placed scope drafts).map Prod.fst).zip
            (((submitted scope drafts).mapIdx outcome).map batchItem) := by
        refine List.mem_of_getElem? (i := rank scope drafts place) ?_
        rw [List.getElem?_zip_eq_some]
        simp [hplaced, hdraftAt]
      rw [if_pos rfl]
      exact Slots.getElem?_fill_of_mem hnodup hmem (by rwa [List.length_map])

/-- The items of a response: each draft in scope with the outcome of its post, each
other draft refused for its book. -/
theorem exists_items {batchMax : ℕ} (hmax : drafts.length ≤ batchMax)
    {answer : (call : ServiceCall) → ServiceReply call}
    {outcome : ℕ → TransactionDraft → Except ApiError Posted}
    (hanswer : answer (.postBatch (submitted scope drafts)) =
      (submitted scope drafts).mapIdx outcome) :
    (postBatchTransactions scope batchMax drafts).asked answer =
        (if submitted scope drafts = [] then [] else [.postBatch (submitted scope drafts)]) ∧
      ∃ items, (postBatchTransactions scope batchMax drafts).run answer = .ok items ∧
        items.length = drafts.length ∧
        ∀ place draft, drafts[place]? = some draft → items[place]? =
          some (if scope.allowsWrite draft.book then
            batchItem (outcome (rank scope drafts place) draft)
          else .err (.forbidden draft.book)) := by
  have hfold := foldl_partitionDraft scope drafts 0
  rw [Nat.add_zero, List.replicate_zero, List.append_nil] at hfold
  have hslots : ∀ place draft, drafts[place]? = some draft →
      ((fillSlots (drafts.map (slotOf scope)) (placed scope drafts)
        ((submitted scope drafts).mapIdx outcome)).map fun slot => slot.getD unresolved)[place]? =
      some (if scope.allowsWrite draft.book then
        batchItem (outcome (rank scope drafts place) draft)
      else .err (.forbidden draft.book)) := by
    intro place draft hdraft
    rw [List.getElem?_map, getElem?_fillSlots hdraft]
    rfl
  unfold postBatchTransactions
  rw [if_neg (Nat.not_lt.2 hmax), hfold]
  by_cases hnil : drafts = []
  · rw [if_pos hnil, hnil]
    exact ⟨rfl, [], rfl, rfl, fun place draft hdraft => by cases hdraft⟩
  rw [if_neg hnil]
  dsimp only
  by_cases hnone : placed scope drafts = []
  · have hsubmitted : submitted scope drafts = [] := by
      rw [← map_snd_placed, hnone]
      rfl
    rw [if_pos hnone, if_pos hsubmitted]
    refine ⟨rfl, _, rfl, by rw [List.length_map, List.length_map], fun place draft hdraft => ?_⟩
    have hslot := hslots place draft hdraft
    rwa [hnone, fillSlots_eq, List.map_nil, List.zip_nil_left] at hslot
  · have hsubmitted : submitted scope drafts ≠ [] := by
      rw [← map_snd_placed]
      exact fun hmap => hnone (List.map_eq_nil_iff.1 hmap)
    rw [if_neg hnone, if_neg hsubmitted, map_snd_placed]
    refine ⟨rfl, _, rfl, ?_, ?_⟩
    · exact (List.length_map _).trans ((length_fillSlots _ _ _).trans (List.length_map _))
    · rw [hanswer]
      exact hslots

end Places

theorem fitsI64_batchItem {result : Except ApiError Posted}
    (hfits : ∀ error, result = .error error → error.FitsI64) : (batchItem result).FitsI64 := by
  cases result with
  | ok posted => trivial
  | error error => exact hfits error rfl

theorem itemResult_batchItem (result : Except ApiError Posted) :
    Client.itemResult (batchItem result) = result := by
  cases result <;> rfl

/-- A batch within the cap has one slot for each draft, and its answer reaches the
client slot by slot: the outcome of the draft's own post, in whatever order the
posts complete, or the refusal of its book.  Drafts out of scope never reach the
service. -/
theorem batch_positional (scope : TokenScope) (batchMax : ℕ) (drafts : List TransactionDraft)
    (hmax : drafts.length ≤ batchMax)
    (outcome : ℕ → TransactionDraft → Except ApiError Posted)
    (hfits : ∀ place draft error, outcome place draft = .error error → error.FitsI64)
    (completions : List (ℕ × Except ApiError Posted))
    (hcompleted : Completed scope drafts outcome completions)
    (answer : (call : ServiceCall) → ServiceReply call)
    (hanswer : some (answer (.postBatch (submitted scope drafts))) =
      Slots.joinAll (submitted scope drafts).length completions) :
    (postBatchTransactions scope batchMax drafts).asked answer =
        (if submitted scope drafts = [] then [] else [.postBatch (submitted scope drafts)]) ∧
      ∃ items, (postBatchTransactions scope batchMax drafts).run answer = .ok items ∧
        items.length = drafts.length ∧
        (∀ place draft, drafts[place]? = some draft → items[place]? =
          some (if scope.allowsWrite draft.book then
            batchItem (outcome (rank scope drafts place) draft)
          else .err (.forbidden draft.book))) ∧
        ∀ texts policy send,
          Client.sendWithRetry policy send = .ok ⟨.ok, .ok (BatchItem.listToJson items).text⟩ →
            (Client.executeBatch texts policy send drafts.length).length = drafts.length ∧
            ∀ place draft, drafts[place]? = some draft →
              (Client.executeBatch texts policy send drafts.length)[place]? =
                some (if scope.allowsWrite draft.book then
                  outcome (rank scope drafts place) draft
                else .error (.forbidden draft.book)) := by
  have hjoin := Slots.joinAll_of_perm hcompleted
  rw [List.length_mapIdx] at hjoin
  have hresults := Option.some.inj (hanswer.trans hjoin)
  obtain ⟨hasked, items, hrun, hlength, hitems⟩ := exists_items hmax hresults
  have hall : ∀ item ∈ items, item.FitsI64 := by
    intro item hmem
    obtain ⟨place, hlt, rfl⟩ := List.mem_iff_getElem.1 hmem
    have hdraft := List.getElem?_eq_getElem (hlength ▸ hlt)
    have hitem := hitems place _ hdraft
    rw [List.getElem?_eq_getElem hlt, Option.some.injEq] at hitem
    rw [hitem]
    split_ifs
    · exact fitsI64_batchItem (hfits _ _)
    · trivial
  refine ⟨hasked, items, hrun, hlength, hitems, fun texts policy send hsend => ?_⟩
  rw [Client.executeBatch_items hall hsend]
  refine ⟨by rw [List.length_map, hlength], fun place draft hdraft => ?_⟩
  rw [List.getElem?_map, hitems place draft hdraft, Option.map_some]
  split_ifs
  · rw [itemResult_batchItem]
  · rfl

namespace BatchRun

def scope : TokenScope :=
  ⟨"payments", .named {"a"}, .readWrite⟩

def draft (book key : String) : TransactionDraft :=
  ⟨book, key, [], [], "null", none⟩

def drafts : List TransactionDraft :=
  [draft "a" "first", draft "b" "second", draft "a" "third"]

theorem inRange_three : I64.InRange 3 := by
  decide

def posted : Posted :=
  ⟨"t1", 3, 1000000, false, inRange_three⟩

def outcome (place : ℕ) (_ : TransactionDraft) : Except ApiError Posted :=
  if place = 0 then .ok posted else .error (.unbalanced "USD" 100 90)

theorem outcome_fits (place : ℕ) (draft : TransactionDraft) (error : ApiError)
    (herror : outcome place draft = .error error) : error.FitsI64 := by
  unfold outcome at herror
  split_ifs at herror
  cases herror
  exact ⟨by decide, by decide⟩

/-- The second post completes first. -/
def completions : List (ℕ × Except ApiError Posted) :=
  [(1, .error (.unbalanced "USD" 100 90)), (0, .ok posted)]

theorem completed : Completed scope drafts outcome completions :=
  List.Perm.swap _ _ _

def answer : (call : ServiceCall) → ServiceReply call
  | .registerAsset _ | .openAccount _ => Except.ok ()
  | .post _ => Except.ok posted
  | .postBatch _ => [.ok posted, .error (.unbalanced "USD" 100 90)]
  | .balance _ _ _ => Except.error .timeout
  | .accountHistory _ _ _ => Except.error .timeout
  | .transaction _ => Except.error .timeout
  | .trialBalance _ _ => Except.error .timeout
  | .subscribe _ _ => Except.error .timeout

theorem answer_joins : some (answer (.postBatch (submitted scope drafts))) =
    Slots.joinAll (submitted scope drafts).length completions := rfl

/-- Two drafts in scope with one out of scope between them. -/
theorem batch_positional_mixed :
    ∃ items, (postBatchTransactions scope 500 drafts).run answer = .ok items ∧
      items[1]? = some (.err (.forbidden "b")) ∧
      ∀ texts policy send,
        Client.sendWithRetry policy send = .ok ⟨.ok, .ok (BatchItem.listToJson items).text⟩ →
          (Client.executeBatch texts policy send 3)[0]? = some (.ok posted) ∧
            (Client.executeBatch texts policy send 3)[2]? =
              some (.error (.unbalanced "USD" 100 90)) := by
  obtain ⟨-, items, hrun, -, hitems, hclient⟩ :=
    batch_positional scope 500 drafts (by decide) outcome outcome_fits completions completed answer
      answer_joins
  exact ⟨items, hrun, hitems 1 _ rfl, fun texts policy send hsend =>
    ⟨(hclient texts policy send hsend).2 0 _ rfl, (hclient texts policy send hsend).2 2 _ rfl⟩⟩

end BatchRun

end Talea.Server
