import Talea.Service.RouterMoves

/-!
# No job is lost, sent twice or sent astray

What holds in every state of the router, in three parts: the map leads to the
committers that take jobs, and to all of them; every job taken is in one place;
and the replies are those of the store's calls, by position.
-/

namespace Talea.Service

open WriteRouter

/-- The jobs in a committer's channel and in the batch that it drains. -/
def Committer.holds (committer : Committer) : List Job :=
  match committer.phase with
  | .draining batch => batch ++ committer.buffer
  | _ => committer.buffer

def Committer.ids (committer : Committer) : List ℕ :=
  committer.holds.map Job.reply

def StoreCall.ids (call : StoreCall) : List ℕ :=
  call.batch.map Job.reply

/-- A committer in its first loop: its channel is open, its entry in the map. -/
def Committer.Live (committer : Committer) : Prop :=
  committer.closed = false ∧ committer.phase ≠ .deregistered

def accepted (submits : List Submit) (id : ℕ) : Bool :=
  match submits[id]? with
  | some submit => submit.stage.accepted
  | none => false

/-! ## The map of senders -/

/-- Senders, in the map or in a submit's hand, are those of the right book; the
map has the live committers and no other. -/
structure Entries (books : HashMap String ℕ) (committers : List Committer)
    (submits : List Submit) : Prop where
  sends : ∀ (id : ℕ) (submit : Submit) (sender : ℕ), submits[id]? = some submit →
    submit.stage = .sending sender →
    ∃ committer, committers[sender]? = some committer ∧ committer.book = submit.book
  entries : ∀ (book : String) (id : ℕ), books.lookup book = some id →
    ∃ committer, committers[id]? = some committer ∧ committer.book = book ∧ committer.Live
  live : ∀ (id : ℕ) (committer : Committer), committers[id]? = some committer → committer.Live →
    books.lookup committer.book = some id

section Entries

variable {books : HashMap String ℕ} {committers : List Committer} {submits : List Submit}
  {id : ℕ} {old new : Committer} {submit submit' : Submit}

theorem Entries.setCommitter (hentries : Entries books committers submits)
    (hold : committers[id]? = some old) (hbook : new.book = old.book)
    (hlive : new.Live ↔ old.Live) : Entries books (committers.set id new) submits := by
  refine ⟨fun sid submit sender hsubmit hstage => ?_, fun book sender hlookup => ?_,
    fun other committer hcommitter hcommitterLive => ?_⟩
  · obtain ⟨committer, hcommitter, hsame⟩ := hentries.sends sid submit sender hsubmit hstage
    rw [getElem?_set_of_some hold]
    by_cases hid : sender = id
    · subst hid
      cases hold.symm.trans hcommitter
      exact ⟨new, if_pos rfl, hbook.trans hsame⟩
    · exact ⟨committer, (if_neg hid).trans hcommitter, hsame⟩
  · obtain ⟨committer, hcommitter, hsame, hcommitterLive⟩ := hentries.entries book sender hlookup
    rw [getElem?_set_of_some hold]
    by_cases hid : sender = id
    · subst hid
      cases hold.symm.trans hcommitter
      exact ⟨new, if_pos rfl, hbook.trans hsame, hlive.2 hcommitterLive⟩
    · exact ⟨committer, (if_neg hid).trans hcommitter, hsame, hcommitterLive⟩
  · rw [getElem?_set_of_some hold] at hcommitter
    by_cases hid : other = id
    · subst hid
      rw [if_pos rfl] at hcommitter
      cases hcommitter
      rw [hbook]
      exact hentries.live other old hold (hlive.1 hcommitterLive)
    · rw [if_neg hid] at hcommitter
      exact hentries.live other committer hcommitter hcommitterLive

/-- A submit may take the sender that the map has for its book. -/
theorem Entries.setSubmit (hentries : Entries books committers submits)
    (hsubmit : submits[id]? = some submit)
    (hsends : ∀ sender, submit'.stage = .sending sender →
      ∃ committer, committers[sender]? = some committer ∧ committer.book = submit'.book) :
    Entries books committers (submits.set id submit') := by
  refine ⟨fun other found sender hfound hstage => ?_, hentries.entries, hentries.live⟩
  rw [getElem?_set_of_some hsubmit] at hfound
  by_cases hid : other = id
  · rw [if_pos hid] at hfound
    cases hfound
    exact hsends sender hstage
  · rw [if_neg hid] at hfound
    exact hentries.sends other found sender hfound hstage

theorem Entries.spawn (hentries : Entries books committers submits)
    (hsubmit : submits[id]? = some submit) (hnone : books.lookup submit.book = none)
    (hbook : submit'.book = submit.book) (hstage : submit'.stage = .sending committers.length) :
    Entries (books.insert submit.book committers.length)
      (committers ++ [⟨submit.book, [], false, .receiving⟩]) (submits.set id submit') := by
  have hnew : (committers ++ [(⟨submit.book, [], false, .receiving⟩ : Committer)])[
      committers.length]? = some ⟨submit.book, [], false, .receiving⟩ :=
    getElem?_concat_eq_some.2 (Or.inr ⟨rfl, rfl⟩)
  refine ⟨fun other found sender hfound hsending => ?_, fun book sender hlookup => ?_,
    fun other committer hcommitter hlive => ?_⟩
  · rw [getElem?_set_of_some hsubmit] at hfound
    by_cases hid : other = id
    · rw [if_pos hid] at hfound
      cases hfound
      cases hstage.symm.trans hsending
      exact ⟨_, hnew, hbook.symm⟩
    · rw [if_neg hid] at hfound
      obtain ⟨committer, hcommitter, hsame⟩ := hentries.sends other found sender hfound hsending
      exact ⟨committer, getElem?_concat_eq_some.2 (Or.inl hcommitter), hsame⟩
  · rw [HashMap.lookup_insert_ite] at hlookup
    by_cases hown : book = submit.book
    · rw [if_pos hown] at hlookup
      cases hlookup
      exact ⟨_, hnew, hown.symm, rfl, nofun⟩
    · rw [if_neg hown] at hlookup
      obtain ⟨committer, hcommitter, hrest⟩ := hentries.entries book sender hlookup
      exact ⟨committer, getElem?_concat_eq_some.2 (Or.inl hcommitter), hrest⟩
  · rw [HashMap.lookup_insert_ite]
    rcases getElem?_concat_eq_some.1 hcommitter with hold | ⟨rfl, rfl⟩
    · have hlookup := hentries.live other committer hold hlive
      rw [if_neg, hlookup]
      intro hown
      rw [hown, hnone] at hlookup
      cases hlookup
    · exact if_pos rfl

theorem Entries.deregister (hentries : Entries books committers submits)
    (hold : committers[id]? = some old) (holdLive : old.Live) (hbook : new.book = old.book)
    (hdead : ¬ new.Live) : Entries (books.erase old.book) (committers.set id new) submits := by
  have hown := hentries.live id old hold holdLive
  refine ⟨fun sid submit sender hsubmit hstage => ?_, fun book sender hlookup => ?_,
    fun other committer hcommitter hlive => ?_⟩
  · obtain ⟨committer, hcommitter, hsame⟩ := hentries.sends sid submit sender hsubmit hstage
    rw [getElem?_set_of_some hold]
    by_cases hid : sender = id
    · subst hid
      cases hold.symm.trans hcommitter
      exact ⟨new, if_pos rfl, hbook.trans hsame⟩
    · exact ⟨committer, (if_neg hid).trans hcommitter, hsame⟩
  · rw [HashMap.lookup_erase_ite] at hlookup
    by_cases hgone : book = old.book
    · rw [if_pos hgone] at hlookup
      cases hlookup
    · rw [if_neg hgone] at hlookup
      obtain ⟨committer, hcommitter, hsame, hlive⟩ := hentries.entries book sender hlookup
      rw [getElem?_set_of_some hold]
      by_cases hid : sender = id
      · subst hid
        cases hold.symm.trans hcommitter
        exact absurd hsame.symm hgone
      · exact ⟨committer, (if_neg hid).trans hcommitter, hsame, hlive⟩
  · rw [getElem?_set_of_some hold] at hcommitter
    by_cases hid : other = id
    · rw [if_pos hid] at hcommitter
      cases hcommitter
      exact absurd hlive hdead
    · rw [if_neg hid] at hcommitter
      have hlookup := hentries.live other committer hcommitter hlive
      rw [HashMap.lookup_erase_ite, if_neg, hlookup]
      intro hsame
      rw [hsame, hown] at hlookup
      exact hid (Option.some.inj hlookup).symm

theorem Entries.arrive (hentries : Entries books committers submits) (transaction : Transaction) :
    Entries books committers (submits ++ [⟨transaction, .looking, .pending⟩]) := by
  refine ⟨fun id submit sender hsubmit hstage => ?_, hentries.entries, hentries.live⟩
  rcases getElem?_concat_eq_some.1 hsubmit with hold | ⟨-, rfl⟩
  · exact hentries.sends id submit sender hold hstage
  · cases hstage

/-- An entry is never that of a closed channel. -/
theorem Entries.lookup_of_isClosed {router : WriteRouter} {book : String}
    (hentries : Entries router.books router.committers router.submits)
    (hclosed : ∀ sender, router.books.lookup book = some sender →
      router.isClosed sender = true) : router.books.lookup book = none := by
  cases hlookup : router.books.lookup book with
  | none => rfl
  | some sender =>
      obtain ⟨committer, hcommitter, -, hopen, -⟩ := hentries.entries book sender hlookup
      have hsender := hclosed sender hlookup
      rw [isClosed, hcommitter] at hsender
      exact absurd (hopen.symm.trans hsender) Bool.false_ne_true

theorem live_of_phase (hclosed : new.closed = old.closed) (hold : old.phase ≠ .deregistered)
    (hnew : new.phase ≠ .deregistered) : new.Live ↔ old.Live := by
  unfold Committer.Live
  rw [hclosed]
  exact and_congr_right fun _ => ⟨fun _ => hold, fun _ => hnew⟩

variable {cfg : WriteConfig} {router next : WriteRouter} {event : Event}

theorem Entries.move (hentries : Entries router.books router.committers router.submits)
    (hmove : Move cfg router event next) : Entries next.books next.committers next.submits := by
  cases hmove with
  | submit transaction => exact hentries.arrive transaction
  | stage hsubmit haccepted hsender hreturns =>
      refine hentries.setSubmit hsubmit fun sender hstage => ?_
      obtain ⟨committer, hcommitter, hbook, -⟩ := hentries.entries _ _ (hsender sender hstage)
      exact ⟨committer, hcommitter, hbook⟩
  | spawn hsubmit hstage hclosed =>
      exact hentries.spawn hsubmit (hentries.lookup_of_isClosed hclosed) rfl rfl
  | send hsubmit hstage hcommitter hopen =>
      refine Entries.setCommitter ?_ hcommitter rfl Iff.rfl
      exact hentries.setSubmit hsubmit nofun
  | receive hcommitter hphase hbuffer =>
      exact hentries.setCommitter hcommitter rfl
        (live_of_phase rfl (by rw [hphase]; nofun) nofun)
  | exit hcommitter hphase hbuffer hend =>
      refine hentries.setCommitter hcommitter rfl ⟨fun h => (nomatch h.1), fun hlive => ?_⟩
      rcases hend with hclosed | hnone
      · exact absurd (hlive.1.symm.trans hclosed) Bool.false_ne_true
      · exact absurd (hentries.live _ _ hcommitter hlive) hnone
  | drain hcommitter hphase hbuffer =>
      exact hentries.setCommitter hcommitter rfl
        (live_of_phase rfl (by rw [hphase]; nofun) nofun)
  | call hcommitter hphase =>
      exact hentries.setCommitter hcommitter rfl
        (live_of_phase rfl (by rw [hphase]; nofun) nofun)
  | close hcommitter hphase =>
      exact hentries.setCommitter hcommitter rfl
        ⟨fun h => (nomatch h.1), fun h => absurd hphase h.2⟩
  | deregister hcommitter hphase hopen =>
      exact hentries.deregister hcommitter ⟨hopen, by rw [hphase]; nofun⟩ rfl fun h => h.2 rfl
  | @answer id results committer call made hcommitter hphase hmade =>
      have hset : Entries router.books (router.committers.set id
          { committer with phase := .receiving }) router.submits :=
        hentries.setCommitter hcommitter rfl
          (live_of_phase rfl (by rw [hphase]; nofun) nofun)
      refine ⟨fun id submit sender hsubmit hstage => ?_, hset.entries, hset.live⟩
      obtain ⟨reply', hreply⟩ := getElem?_reply router.submits _ _ id
      rw [hreply] at hsubmit
      obtain ⟨found, hfound, rfl⟩ := Option.map_eq_some_iff.1 hsubmit
      exact hset.sends id found sender hfound hstage

end Entries

/-! ## Every job in one place -/

/-- A job that `try_send` took is held or passed on once, by the committer of
its book; no other job is, and none is in a channel that was dropped. -/
structure Held (committers : List Committer) (submits : List Submit) (calls : List StoreCall) :
    Prop where
  once : ∀ id : ℕ,
    (committers.flatMap Committer.ids).count id + (calls.flatMap StoreCall.ids).count id =
      if accepted submits id then 1 else 0
  waiting : ∀ (id : ℕ) (committer : Committer), committers[id]? = some committer →
    ∀ job ∈ committer.holds, job.transaction.book.name = committer.book ∧
      ∃ submit, submits[job.reply]? = some submit ∧ submit.transaction = job.transaction
  passed : ∀ (call : ℕ) (made : StoreCall), calls[call]? = some made → ∀ job ∈ made.batch,
    (∃ committer, committers[made.committer]? = some committer ∧
      job.transaction.book.name = committer.book) ∧
      ∃ submit, submits[job.reply]? = some submit ∧ submit.transaction = job.transaction
  dropped : ∀ (id : ℕ) (committer : Committer), committers[id]? = some committer →
    committer.phase = .exited → committer.closed = true ∧ committer.buffer = []

section Held

variable {committers : List Committer} {submits submits' : List Submit} {calls : List StoreCall}
  {id : ℕ} {old new : Committer} {submit submit' : Submit}

/-- Submits may be replaced by others of the same transactions that `try_send`
has taken or not taken as before. -/
theorem Held.ofSubmits (hheld : Held committers submits calls)
    (haccepted : ∀ id, accepted submits' id = accepted submits id)
    (hsame : ∀ (id : ℕ) (submit : Submit), submits[id]? = some submit →
      ∃ submit', submits'[id]? = some submit' ∧ submit'.transaction = submit.transaction) :
    Held committers submits' calls := by
  have howner : ∀ job : Job,
      (∃ submit, submits[job.reply]? = some submit ∧ submit.transaction = job.transaction) →
      ∃ submit, submits'[job.reply]? = some submit ∧ submit.transaction = job.transaction := by
    rintro job ⟨submit, hsubmit, htransaction⟩
    obtain ⟨submit', hsubmit', hsame'⟩ := hsame job.reply submit hsubmit
    exact ⟨submit', hsubmit', hsame'.trans htransaction⟩
  refine ⟨fun id => ?_, fun id committer hcommitter job hjob => ?_,
    fun call made hmade job hjob => ?_, hheld.dropped⟩
  · rw [haccepted]
    exact hheld.once id
  · have hwaiting := hheld.waiting id committer hcommitter job hjob
    exact ⟨hwaiting.1, howner job hwaiting.2⟩
  · have hpassed := hheld.passed call made hmade job hjob
    exact ⟨hpassed.1, howner job hpassed.2⟩

theorem accepted_set (hsubmit : submits[id]? = some submit)
    (haccepted : submit'.stage.accepted = submit.stage.accepted) (other : ℕ) :
    accepted (submits.set id submit') other = accepted submits other := by
  unfold accepted
  rw [getElem?_set_of_some hsubmit]
  by_cases hid : other = id
  · rw [if_pos hid, hid, hsubmit]
    exact haccepted
  · rw [if_neg hid]

theorem Held.setSubmit (hheld : Held committers submits calls)
    (hsubmit : submits[id]? = some submit) (htransaction : submit'.transaction = submit.transaction)
    (haccepted : submit'.stage.accepted = submit.stage.accepted) :
    Held committers (submits.set id submit') calls := by
  refine hheld.ofSubmits (accepted_set hsubmit haccepted) fun other found hfound => ?_
  rw [getElem?_set_of_some hsubmit]
  by_cases hid : other = id
  · subst hid
    cases hsubmit.symm.trans hfound
    exact ⟨submit', if_pos rfl, htransaction⟩
  · exact ⟨found, (if_neg hid).trans hfound, rfl⟩

/-- A committer may reorder the jobs it holds, and change its state. -/
theorem Held.setCommitter (hheld : Held committers submits calls)
    (hold : committers[id]? = some old) (hbook : new.book = old.book)
    (hholds : new.holds.Perm old.holds)
    (hdropped : new.phase = .exited → new.closed = true ∧ new.buffer = []) :
    Held (committers.set id new) submits calls := by
  refine ⟨fun job => ?_, fun other committer hcommitter job hjob => ?_,
    fun call made hmade job hjob => ?_, fun other committer hcommitter hphase => ?_⟩
  · have hcount := count_flatMap_set Committer.ids hold new job
    have hsame : new.ids.count job = old.ids.count job := (hholds.map Job.reply).count_eq job
    have honce := hheld.once job
    omega
  · rw [getElem?_set_of_some hold] at hcommitter
    by_cases hid : other = id
    · rw [if_pos hid] at hcommitter
      cases hcommitter
      rw [hbook]
      exact hheld.waiting id old hold job (hholds.mem_iff.1 hjob)
    · rw [if_neg hid] at hcommitter
      exact hheld.waiting other committer hcommitter job hjob
  · obtain ⟨⟨committer, hcommitter, hname⟩, howner⟩ := hheld.passed call made hmade job hjob
    refine ⟨?_, howner⟩
    rw [getElem?_set_of_some hold]
    by_cases hid : made.committer = id
    · rw [hid] at hcommitter
      cases hold.symm.trans hcommitter
      exact ⟨new, if_pos hid, hname.trans hbook.symm⟩
    · exact ⟨committer, (if_neg hid).trans hcommitter, hname⟩
  · rw [getElem?_set_of_some hold] at hcommitter
    by_cases hid : other = id
    · rw [if_pos hid] at hcommitter
      cases hcommitter
      exact hdropped hphase
    · rw [if_neg hid] at hcommitter
      exact hheld.dropped other committer hcommitter hphase

theorem Held.arrive (hheld : Held committers submits calls) (transaction : Transaction) :
    Held committers (submits ++ [⟨transaction, .looking, .pending⟩]) calls := by
  refine hheld.ofSubmits (fun id => ?_) fun id submit hsubmit =>
    ⟨submit, getElem?_concat_eq_some.2 (Or.inl hsubmit), rfl⟩
  unfold accepted
  cases hsubmit : submits[id]? with
  | some submit => rw [getElem?_concat_eq_some.2 (Or.inl hsubmit)]
  | none =>
      cases hnew : (submits ++ [⟨transaction, .looking, .pending⟩])[id]? with
      | none => rfl
      | some submit =>
          rcases getElem?_concat_eq_some.1 hnew with hold | ⟨-, rfl⟩
          · rw [hsubmit] at hold
            cases hold
          · rfl

theorem Held.spawn (hheld : Held committers submits calls) (book : String) :
    Held (committers ++ [⟨book, [], false, .receiving⟩]) submits calls := by
  refine ⟨fun id => ?_, fun id committer hcommitter job hjob => ?_,
    fun call made hmade job hjob => ?_, fun id committer hcommitter hphase => ?_⟩
  · rw [count_flatMap_concat]
    exact hheld.once id
  · rcases getElem?_concat_eq_some.1 hcommitter with hold | ⟨-, rfl⟩
    · exact hheld.waiting id committer hold job hjob
    · cases hjob
  · obtain ⟨⟨committer, hcommitter, hname⟩, howner⟩ := hheld.passed call made hmade job hjob
    exact ⟨⟨committer, getElem?_concat_eq_some.2 (Or.inl hcommitter), hname⟩, howner⟩
  · rcases getElem?_concat_eq_some.1 hcommitter with hold | ⟨-, rfl⟩
    · exact hheld.dropped id committer hold hphase
    · cases hphase

theorem holds_push (committer : Committer) (job : Job) :
    { committer with buffer := committer.buffer ++ [job] }.holds = committer.holds ++ [job] := by
  unfold Committer.holds
  cases committer.phase with
  | draining batch => exact (List.append_assoc _ _ _).symm
  | _ => rfl

theorem Held.send (hheld : Held committers submits calls) {sender : ℕ}
    (hsubmit : submits[id]? = some submit) (hstage : submit.stage.accepted = false)
    (hold : committers[sender]? = some old) (hopen : old.closed = false)
    (hbook : old.book = submit.book) :
    Held (committers.set sender { old with buffer := old.buffer ++ [⟨submit.transaction, id⟩] })
      (submits.set id { submit with stage := .awaiting }) calls := by
  have howner : ∀ job : Job,
      (∃ found, submits[job.reply]? = some found ∧ found.transaction = job.transaction) →
      ∃ found, (submits.set id { submit with stage := .awaiting })[job.reply]? = some found ∧
        found.transaction = job.transaction := by
    rintro job ⟨found, hfound, htransaction⟩
    rw [getElem?_set_of_some hsubmit]
    by_cases hid : job.reply = id
    · rw [hid, hsubmit] at hfound
      cases hfound
      exact ⟨_, if_pos hid, htransaction⟩
    · exact ⟨found, (if_neg hid).trans hfound, htransaction⟩
  refine ⟨fun other => ?_, fun other committer hcommitter job hjob => ?_,
    fun call made hmade job hjob => ?_, fun other committer hcommitter hphase => ?_⟩
  · have hcount := count_flatMap_set Committer.ids hold
      { old with buffer := old.buffer ++ [⟨submit.transaction, id⟩] } other
    have honce := hheld.once other
    have hids : ({ old with buffer := old.buffer ++ [⟨submit.transaction, id⟩] } :
        Committer).ids = old.ids ++ [id] := by
      unfold Committer.ids
      rw [holds_push, List.map_append]
      rfl
    rw [hids, List.count_append] at hcount
    unfold accepted at honce ⊢
    rw [getElem?_set_of_some hsubmit]
    by_cases hother : other = id
    · subst hother
      rw [hsubmit] at honce
      simp only [hstage, Bool.false_eq_true, if_false] at honce
      simp only [if_true, Stage.accepted, List.count_singleton_self] at hcount ⊢
      omega
    · rw [List.count_singleton, beq_eq_false_iff_ne.2 (Ne.symm hother)] at hcount
      rw [if_neg hother]
      simp only [Bool.false_eq_true, if_false] at hcount
      omega
  · rw [getElem?_set_of_some hold] at hcommitter
    by_cases hid : other = sender
    · rw [if_pos hid] at hcommitter
      cases hcommitter
      rw [holds_push, List.mem_append, List.mem_singleton] at hjob
      rcases hjob with hjob | rfl
      · have hwaiting := hheld.waiting sender old hold job hjob
        exact ⟨hwaiting.1, howner job hwaiting.2⟩
      · exact ⟨hbook.symm, howner _ ⟨submit, hsubmit, rfl⟩⟩
    · rw [if_neg hid] at hcommitter
      have hwaiting := hheld.waiting other committer hcommitter job hjob
      exact ⟨hwaiting.1, howner job hwaiting.2⟩
  · obtain ⟨⟨committer, hcommitter, hname⟩, hfound⟩ := hheld.passed call made hmade job hjob
    refine ⟨?_, howner job hfound⟩
    rw [getElem?_set_of_some hold]
    by_cases hid : made.committer = sender
    · rw [hid] at hcommitter
      cases hold.symm.trans hcommitter
      exact ⟨_, if_pos hid, hname⟩
    · exact ⟨committer, (if_neg hid).trans hcommitter, hname⟩
  · rw [getElem?_set_of_some hold] at hcommitter
    by_cases hid : other = sender
    · rw [if_pos hid] at hcommitter
      cases hcommitter
      have hdropped := hheld.dropped sender old hold hphase
      exact absurd (hopen.symm.trans hdropped.1) Bool.false_ne_true
    · rw [if_neg hid] at hcommitter
      exact hheld.dropped other committer hcommitter hphase

/-- The batch goes from the committer to its call. -/
theorem Held.call (hheld : Held committers submits calls) {batch : List Job}
    (hold : committers[id]? = some old) (hphase : old.phase = .draining batch) (call : ℕ) :
    Held (committers.set id { old with phase := .committing call }) submits
      (calls ++ [⟨id, batch, none⟩]) := by
  have hholds : old.holds = batch ++ old.buffer := by
    unfold Committer.holds
    rw [hphase]
  have hself : (committers.set id { old with phase := .committing call })[id]? =
      some { old with phase := .committing call } :=
    (getElem?_set_of_some hold _ id).trans (if_pos rfl)
  refine ⟨fun other => ?_, fun other committer hcommitter job hjob => ?_,
    fun other made hmade job hjob => ?_, fun other committer hcommitter hexited => ?_⟩
  · have hcount := count_flatMap_set Committer.ids hold
      { old with phase := .committing call } other
    have hids : old.ids = batch.map Job.reply ++ old.buffer.map Job.reply := by
      unfold Committer.ids
      rw [hholds, List.map_append]
    have hnew : ({ old with phase := .committing call } : Committer).ids =
        old.buffer.map Job.reply := rfl
    have hcall : (⟨id, batch, none⟩ : StoreCall).ids = batch.map Job.reply := rfl
    have honce := hheld.once other
    rw [hids, hnew, List.count_append] at hcount
    rw [count_flatMap_concat, hcall]
    omega
  · rw [getElem?_set_of_some hold] at hcommitter
    by_cases hid : other = id
    · rw [if_pos hid] at hcommitter
      cases hcommitter
      refine hheld.waiting id old hold job ?_
      rw [hholds]
      exact List.mem_append_right _ hjob
    · rw [if_neg hid] at hcommitter
      exact hheld.waiting other committer hcommitter job hjob
  · rcases getElem?_concat_eq_some.1 hmade with hmade | ⟨-, rfl⟩
    · obtain ⟨⟨committer, hcommitter, hname⟩, howner⟩ := hheld.passed other made hmade job hjob
      refine ⟨?_, howner⟩
      by_cases hid : made.committer = id
      · rw [hid] at hcommitter ⊢
        cases hold.symm.trans hcommitter
        exact ⟨_, hself, hname⟩
      · rw [getElem?_set_of_some hold]
        exact ⟨committer, (if_neg hid).trans hcommitter, hname⟩
    · have hwaiting := hheld.waiting id old hold job
        (hholds ▸ List.mem_append_left _ hjob)
      exact ⟨⟨_, hself, hwaiting.1⟩, hwaiting.2⟩
  · rw [getElem?_set_of_some hold] at hcommitter
    by_cases hid : other = id
    · rw [if_pos hid] at hcommitter
      cases hcommitter
      cases hexited
    · rw [if_neg hid] at hcommitter
      exact hheld.dropped other committer hcommitter hexited

/-- Results on a call leave its jobs where they are. -/
theorem Held.setResults (hheld : Held committers submits calls) {call : ℕ} {made : StoreCall}
    (hmade : calls[call]? = some made) (results : Option (List Committing)) :
    Held committers submits (calls.set call { made with results }) := by
  refine ⟨fun id => ?_, hheld.waiting, fun other found hfound job hjob => ?_, hheld.dropped⟩
  · have hcount := count_flatMap_set StoreCall.ids hmade { made with results } id
    have hsame : ({ made with results } : StoreCall).ids = made.ids := rfl
    have honce := hheld.once id
    rw [hsame] at hcount
    omega
  · rw [getElem?_set_of_some hmade] at hfound
    by_cases hid : other = call
    · rw [if_pos hid] at hfound
      cases hfound
      exact hheld.passed call made hmade job hjob
    · rw [if_neg hid] at hfound
      exact hheld.passed other found hfound job hjob

theorem Held.reply (hheld : Held committers submits calls) (jobs : List Job)
    (results : List Committing) : Held committers (reply submits jobs results) calls := by
  refine hheld.ofSubmits (fun id => ?_) fun id submit hsubmit => ?_
  · obtain ⟨reply', hreply⟩ := getElem?_reply submits jobs results id
    unfold accepted
    rw [hreply]
    cases submits[id]? <;> rfl
  · obtain ⟨reply', hreply⟩ := getElem?_reply submits jobs results id
    rw [hreply, hsubmit]
    exact ⟨_, rfl, rfl⟩

variable {cfg : WriteConfig} {router next : WriteRouter} {event : Event}

theorem Held.move (hheld : Held router.committers router.submits router.calls)
    (hentries : Entries router.books router.committers router.submits)
    (hmove : Move cfg router event next) : Held next.committers next.submits next.calls := by
  cases hmove with
  | submit transaction => exact hheld.arrive transaction
  | stage hsubmit haccepted hsender hreturns => exact hheld.setSubmit hsubmit rfl haccepted
  | spawn hsubmit hstage hclosed =>
      refine (Held.spawn ?_ _)
      refine hheld.setSubmit hsubmit rfl ?_
      rw [hstage]
      rfl
  | send hsubmit hstage hcommitter hopen =>
      obtain ⟨committer, hfound, hbook⟩ := hentries.sends _ _ _ hsubmit hstage
      cases hcommitter.symm.trans hfound
      refine hheld.send hsubmit ?_ hcommitter hopen hbook
      rw [hstage]
      rfl
  | receive hcommitter hphase hbuffer =>
      refine hheld.setCommitter hcommitter rfl ?_ nofun
      unfold Committer.holds
      rw [hphase, hbuffer]
      exact List.Perm.refl _
  | exit hcommitter hphase hbuffer hend =>
      refine hheld.setCommitter hcommitter rfl ?_ fun _ => ⟨rfl, hbuffer⟩
      unfold Committer.holds
      rw [hphase]
  | @drain event id committer batch rest job hcommitter hphase hbuffer =>
      refine hheld.setCommitter hcommitter rfl ?_ nofun
      unfold Committer.holds
      rw [hphase, hbuffer]
      exact List.Perm.of_eq (List.append_assoc batch [job] rest)
  | call hcommitter hphase => exact hheld.call hcommitter hphase _
  | close hcommitter hphase =>
      refine hheld.setCommitter hcommitter rfl ?_ nofun
      unfold Committer.holds
      rw [hphase]
  | deregister hcommitter hphase hopen =>
      refine hheld.setCommitter hcommitter rfl ?_ nofun
      unfold Committer.holds
      rw [hphase]
  | answer hcommitter hphase hmade =>
      refine Held.reply (Held.setResults ?_ hmade _) _ _
      refine hheld.setCommitter hcommitter rfl ?_ nofun
      unfold Committer.holds
      rw [hphase]

end Held

/-! ## Replies by position -/

/-- Every result of a call is in its own job's channel, every reply is such a
result, and a submit returns what its channel says. -/
structure Replies (committers : List Committer) (submits : List Submit)
    (calls : List StoreCall) : Prop where
  delivered : ∀ (call : ℕ) (made : StoreCall) (results : List Committing),
    calls[call]? = some made → made.results = some results →
    results.length = made.batch.length ∧
      ∀ (position : ℕ) (job : Job) (result : Committing), made.batch[position]? = some job →
        results[position]? = some result →
        ∃ submit, submits[job.reply]? = some submit ∧ submit.reply = .sent result
  replied : ∀ (id : ℕ) (submit : Submit), submits[id]? = some submit →
    submit.reply = .pending ∨
      ∃ (call : ℕ) (made : StoreCall) (results : List Committing) (position : ℕ) (job : Job)
        (result : Committing), calls[call]? = some made ∧ made.results = some results ∧
        made.batch[position]? = some job ∧ results[position]? = some result ∧ job.reply = id ∧
        submit.reply = .sent result
  returned : ∀ (id : ℕ) (submit : Submit) (result : Except SubmitError Committed),
    submits[id]? = some submit → submit.stage = .returned result →
    result = .error .overloaded ∨ ∃ sent, submit.reply = .sent sent ∧ result = sent.mapError .store
  committing : ∀ (id : ℕ) (committer : Committer) (call : ℕ), committers[id]? = some committer →
    committer.phase = .committing call →
    ∃ made, calls[call]? = some made ∧ made.committer = id ∧ made.results = none

section Replies

variable {committers : List Committer} {submits : List Submit} {calls : List StoreCall}
  {id : ℕ} {old new : Committer} {submit submit' : Submit}

theorem Replies.setCommitter (hreplies : Replies committers submits calls)
    (hold : committers[id]? = some old) (hphase : ∀ call, new.phase ≠ .committing call) :
    Replies (committers.set id new) submits calls := by
  refine ⟨hreplies.delivered, hreplies.replied, hreplies.returned,
    fun other committer call hcommitter hcommitting => ?_⟩
  rw [getElem?_set_of_some hold] at hcommitter
  by_cases hid : other = id
  · rw [if_pos hid] at hcommitter
    cases hcommitter
    exact absurd hcommitting (hphase call)
  · rw [if_neg hid] at hcommitter
    exact hreplies.committing other committer call hcommitter hcommitting

theorem Replies.setSubmit (hreplies : Replies committers submits calls)
    (hsubmit : submits[id]? = some submit) (hreply : submit'.reply = submit.reply)
    (hreturns : ∀ result, submit'.stage = .returned result → submit.Returns result) :
    Replies committers (submits.set id submit') calls := by
  have hpending : submit.reply ≠ .dropped := by
    rcases hreplies.replied id submit hsubmit with hpending | ⟨_, _, _, _, _, _, _, _, _, _, _, hsent⟩
    · rw [hpending]
      nofun
    · rw [hsent]
      nofun
  refine ⟨fun call made results hmade hresults => ?_, fun other found hfound => ?_,
    fun other found result hfound hstage => ?_, hreplies.committing⟩
  · obtain ⟨hlength, hdelivered⟩ := hreplies.delivered call made results hmade hresults
    refine ⟨hlength, fun position job result hjob hresult => ?_⟩
    obtain ⟨found, hfound, hsent⟩ := hdelivered position job result hjob hresult
    rw [getElem?_set_of_some hsubmit]
    by_cases hid : job.reply = id
    · rw [hid, hsubmit] at hfound
      cases hfound
      exact ⟨submit', if_pos hid, hreply.trans hsent⟩
    · exact ⟨found, (if_neg hid).trans hfound, hsent⟩
  · rw [getElem?_set_of_some hsubmit] at hfound
    by_cases hid : other = id
    · rw [if_pos hid] at hfound
      cases hfound
      rw [hid, hreply]
      exact hreplies.replied id submit hsubmit
    · rw [if_neg hid] at hfound
      exact hreplies.replied other found hfound
  · rw [getElem?_set_of_some hsubmit] at hfound
    by_cases hid : other = id
    · rw [if_pos hid] at hfound
      cases hfound
      rw [hreply]
      rcases hreturns result hstage with hover | hsent | ⟨hdropped, -⟩
      · exact Or.inl hover
      · exact Or.inr hsent
      · exact absurd hdropped hpending
    · rw [if_neg hid] at hfound
      exact hreplies.returned other found result hfound hstage

theorem Replies.arrive (hreplies : Replies committers submits calls) (transaction : Transaction) :
    Replies committers (submits ++ [⟨transaction, .looking, .pending⟩]) calls := by
  refine ⟨fun call made results hmade hresults => ?_, fun id found hfound => ?_,
    fun id found result hfound hstage => ?_, hreplies.committing⟩
  · obtain ⟨hlength, hdelivered⟩ := hreplies.delivered call made results hmade hresults
    refine ⟨hlength, fun position job result hjob hresult => ?_⟩
    obtain ⟨found, hfound, hsent⟩ := hdelivered position job result hjob hresult
    exact ⟨found, getElem?_concat_eq_some.2 (Or.inl hfound), hsent⟩
  · rcases getElem?_concat_eq_some.1 hfound with hold | ⟨-, rfl⟩
    · exact hreplies.replied id found hold
    · exact Or.inl rfl
  · rcases getElem?_concat_eq_some.1 hfound with hold | ⟨-, rfl⟩
    · exact hreplies.returned id found result hold hstage
    · cases hstage

theorem Replies.spawn (hreplies : Replies committers submits calls) (book : String) :
    Replies (committers ++ [⟨book, [], false, .receiving⟩]) submits calls := by
  refine ⟨hreplies.delivered, hreplies.replied, hreplies.returned,
    fun id committer call hcommitter hcommitting => ?_⟩
  rcases getElem?_concat_eq_some.1 hcommitter with hold | ⟨-, rfl⟩
  · exact hreplies.committing id committer call hold hcommitting
  · cases hcommitting

theorem Replies.pushBuffer (hreplies : Replies committers submits calls)
    (hold : committers[id]? = some old) (buffer : List Job) :
    Replies (committers.set id { old with buffer }) submits calls := by
  refine ⟨hreplies.delivered, hreplies.replied, hreplies.returned,
    fun other committer call hcommitter hcommitting => ?_⟩
  rw [getElem?_set_of_some hold] at hcommitter
  by_cases hid : other = id
  · rw [if_pos hid] at hcommitter
    cases hcommitter
    rw [hid]
    exact hreplies.committing id old call hold hcommitting
  · rw [if_neg hid] at hcommitter
    exact hreplies.committing other committer call hcommitter hcommitting

theorem Replies.call (hreplies : Replies committers submits calls)
    (hold : committers[id]? = some old) (batch : List Job) :
    Replies (committers.set id { old with phase := .committing calls.length }) submits
      (calls ++ [⟨id, batch, none⟩]) := by
  refine ⟨fun call made results hmade hresults => ?_, fun other found hfound => ?_,
    hreplies.returned, fun other committer call hcommitter hcommitting => ?_⟩
  · rcases getElem?_concat_eq_some.1 hmade with hmade | ⟨-, rfl⟩
    · exact hreplies.delivered call made results hmade hresults
    · cases hresults
  · refine (hreplies.replied other found hfound).imp_right ?_
    rintro ⟨call, made, results, position, job, result, hmade, hrest⟩
    exact ⟨call, made, results, position, job, result,
      getElem?_concat_eq_some.2 (Or.inl hmade), hrest⟩
  · rw [getElem?_set_of_some hold] at hcommitter
    by_cases hid : other = id
    · rw [if_pos hid] at hcommitter
      cases hcommitter
      cases hcommitting
      exact ⟨⟨id, batch, none⟩, getElem?_concat_eq_some.2 (Or.inr ⟨rfl, rfl⟩), hid.symm, rfl⟩
    · rw [if_neg hid] at hcommitter
      obtain ⟨made, hmade, hrest⟩ :=
        hreplies.committing other committer call hcommitter hcommitting
      exact ⟨made, getElem?_concat_eq_some.2 (Or.inl hmade), hrest⟩

theorem Held.count_ids_le (hheld : Held committers submits calls) (id : ℕ) :
    (calls.flatMap StoreCall.ids).count id ≤ 1 := by
  have honce := hheld.once id
  split at honce <;> omega

theorem Held.nodup_ids (hheld : Held committers submits calls) {call : ℕ} {made : StoreCall}
    (hmade : calls[call]? = some made) : made.ids.Nodup := by
  rw [List.nodup_iff_count_le_one]
  intro id
  have hset := count_flatMap_set StoreCall.ids hmade ⟨made.committer, [], none⟩ id
  have hempty : (⟨made.committer, [], none⟩ : StoreCall).ids = [] := rfl
  have hle := hheld.count_ids_le id
  rw [hempty, List.count_nil] at hset
  omega

/-- The answer of the store goes to the jobs of its call, which had none, and
to no other. -/
theorem Replies.answer (hreplies : Replies committers submits calls)
    (hheld : Held committers submits calls) (hold : committers[id]? = some old) {call : ℕ}
    (hphase : old.phase = .committing call) {made : StoreCall} (hmade : calls[call]? = some made)
    {results : List Committing} (hlength : results.length = made.batch.length) :
    Replies (committers.set id { old with phase := .receiving }) (reply submits made.batch results)
      (calls.set call { made with results := some results }) := by
  obtain ⟨hcommitter, hnone⟩ : made.committer = id ∧ made.results = none := by
    obtain ⟨found, hfound, hcommitter, hresults⟩ := hreplies.committing id old call hold hphase
    cases hmade.symm.trans hfound
    exact ⟨hcommitter, hresults⟩
  have hnodup := hheld.nodup_ids hmade
  -- a job of this call is in no other one
  have hother : ∀ (other : ℕ) (found : StoreCall), calls[other]? = some found → other ≠ call →
      ∀ job ∈ found.batch, job.reply ∉ made.ids := by
    intro other found hfound hne job hjob hmem
    exact hne (index_unique StoreCall.ids (hheld.count_ids_le job.reply) hfound hmade
      (List.mem_map_of_mem hjob) hmem)
  have hpending : ∀ (sid : ℕ) (before : Submit), submits[sid]? = some before → sid ∈ made.ids →
      before.reply = .pending := by
    intro sid before hbefore hmem
    refine (hreplies.replied sid before hbefore).resolve_right ?_
    rintro ⟨other, found, results', position, job, result, hfound, hresults, hjob, -, rfl, -⟩
    by_cases hid : other = call
    · subst hid
      cases hmade.symm.trans hfound
      rw [hnone] at hresults
      cases hresults
    · exact hother other found hfound hid job (List.mem_of_getElem? hjob) hmem
  have hposition : ∀ sid ∈ made.ids, ∃ (position : ℕ) (job : Job) (result : Committing),
      made.batch[position]? = some job ∧ results[position]? = some result ∧ job.reply = sid := by
    intro sid hmem
    obtain ⟨job, hjob, rfl⟩ := List.mem_map.1 hmem
    obtain ⟨position, hlt, hget⟩ := List.getElem_of_mem hjob
    exact ⟨position, job, results[position], List.getElem?_eq_some_iff.2 ⟨hlt, hget⟩,
      List.getElem?_eq_getElem (hlength ▸ hlt), rfl⟩
  refine ⟨fun other found results' hfound hresults => ?_, fun sid found hfound => ?_,
    fun sid found result hfound hstage => ?_, fun other committer call' hfound hcommitting => ?_⟩
  · rw [getElem?_set_of_some hmade] at hfound
    by_cases hid : other = call
    · rw [if_pos hid] at hfound
      cases hfound
      cases hresults
      refine ⟨hlength, fun position job result hjob hresult => ?_⟩
      obtain ⟨submit, hsubmit, -⟩ := (hheld.passed call made hmade job
        (List.mem_of_getElem? hjob)).2
      rw [getElem?_reply_of_position submits hlength hnodup hjob hresult, hsubmit]
      exact ⟨_, rfl, rfl⟩
    · rw [if_neg hid] at hfound
      obtain ⟨hsame, hdelivered⟩ := hreplies.delivered other found results' hfound hresults
      refine ⟨hsame, fun position job result hjob hresult => ?_⟩
      obtain ⟨submit, hsubmit, hsent⟩ := hdelivered position job result hjob hresult
      have hnot := hother other found hfound hid job (List.mem_of_getElem? hjob)
      exact ⟨submit, (getElem?_reply_of_not_mem submits results hnot).trans hsubmit, hsent⟩
  · by_cases hmem : sid ∈ made.ids
    · obtain ⟨position, job, result, hjob, hresult, rfl⟩ := hposition sid hmem
      rw [getElem?_reply_of_position submits hlength hnodup hjob hresult] at hfound
      obtain ⟨before, hbefore, rfl⟩ := Option.map_eq_some_iff.1 hfound
      exact Or.inr ⟨call, _, results, position, job, result,
        (getElem?_set_of_some hmade _ _).trans (if_pos rfl), rfl, hjob, hresult, rfl, rfl⟩
    · rw [getElem?_reply_of_not_mem submits results hmem] at hfound
      refine (hreplies.replied sid found hfound).imp_right ?_
      rintro ⟨other, made', results', position, job, result, hmade', hresults, hrest⟩
      have hid : other ≠ call := by
        rintro rfl
        cases hmade.symm.trans hmade'
        rw [hnone] at hresults
        cases hresults
      exact ⟨other, made', results', position, job, result,
        (getElem?_set_of_some hmade _ _).trans ((if_neg hid).trans hmade'), hresults, hrest⟩
  · by_cases hmem : sid ∈ made.ids
    · obtain ⟨reply', hreply⟩ := getElem?_reply submits made.batch results sid
      rw [hreply] at hfound
      obtain ⟨before, hbefore, rfl⟩ := Option.map_eq_some_iff.1 hfound
      refine Or.inl ((hreplies.returned sid before result hbefore hstage).resolve_right ?_)
      rintro ⟨sent, hsent, -⟩
      rw [hpending sid before hbefore hmem] at hsent
      cases hsent
    · rw [getElem?_reply_of_not_mem submits results hmem] at hfound
      exact hreplies.returned sid found result hfound hstage
  · rw [getElem?_set_of_some hold] at hfound
    by_cases hid : other = id
    · rw [if_pos hid] at hfound
      cases hfound
      cases hcommitting
    · rw [if_neg hid] at hfound
      obtain ⟨made', hmade', howner, hopen⟩ :=
        hreplies.committing other committer call' hfound hcommitting
      have hne : call' ≠ call := by
        rintro rfl
        cases hmade.symm.trans hmade'
        exact hid (howner.symm.trans hcommitter)
      exact ⟨made', (getElem?_set_of_some hmade _ _).trans ((if_neg hne).trans hmade'), howner,
        hopen⟩

variable {cfg : WriteConfig} {router next : WriteRouter} {event : Event}

/-- The call of `commit_batch` that a committer waits for. -/
def Committer.inFlight (committer : Committer) : Option ℕ :=
  match committer.phase with
  | .committing call => some call
  | _ => none

/-- The store answers each draft of a call: one result per draft. -/
def OneEach (router : WriteRouter) (event : Event) : Prop :=
  match event with
  | .answer id results => ∀ committer ∈ router.committers[id]?, ∀ call ∈ committer.inFlight,
      ∀ made ∈ router.calls[call]?, results.length = made.batch.length
  | _ => True

instance (router : WriteRouter) : ∀ event, Decidable (OneEach router event)
  | .answer id results => inferInstanceAs (Decidable (∀ committer ∈ router.committers[id]?,
      ∀ call ∈ committer.inFlight, ∀ made ∈ router.calls[call]?,
        results.length = made.batch.length))
  | .submit _ | .poll _ | .cancel _ | .run _ | .idle _ => isTrue trivial

theorem Replies.move (hreplies : Replies router.committers router.submits router.calls)
    (hheld : Held router.committers router.submits router.calls)
    (hone : OneEach router event) (hmove : Move cfg router event next) :
    Replies next.committers next.submits next.calls := by
  cases hmove with
  | submit transaction => exact hreplies.arrive transaction
  | stage hsubmit haccepted hsender hreturns => exact hreplies.setSubmit hsubmit rfl hreturns
  | spawn hsubmit hstage hclosed =>
      refine Replies.spawn ?_ _
      exact hreplies.setSubmit hsubmit rfl nofun
  | send hsubmit hstage hcommitter hopen =>
      refine Replies.pushBuffer ?_ hcommitter _
      exact hreplies.setSubmit hsubmit rfl nofun
  | receive hcommitter hphase hbuffer => exact hreplies.setCommitter hcommitter nofun
  | exit hcommitter hphase hbuffer hend => exact hreplies.setCommitter hcommitter nofun
  | drain hcommitter hphase hbuffer => exact hreplies.setCommitter hcommitter nofun
  | call hcommitter hphase => exact hreplies.call hcommitter _
  | close hcommitter hphase => exact hreplies.setCommitter hcommitter nofun
  | deregister hcommitter hphase hopen => exact hreplies.setCommitter hcommitter nofun
  | answer hcommitter hphase hmade =>
      refine hreplies.answer hheld hcommitter hphase hmade (hone _ hcommitter _ ?_ _ hmade)
      unfold Committer.inFlight
      rw [hphase]
      rfl

end Replies

/-! ## Over a run -/

/-- Each job that was taken is in one place, a job that was not is nowhere, and
the submits get the results of their own positions. -/
structure Kept (router : WriteRouter) : Prop where
  held : Held router.committers router.submits router.calls
  replies : Replies router.committers router.submits router.calls

/-- An entry leaves the map when its own committer deregisters, and only then. -/
def KeepsEntries (cfg : WriteConfig) (router : WriteRouter) (event : Event) : Prop :=
  ∀ next, router.step cfg event = some next → ∀ (book : String) (id : ℕ),
    router.books.lookup book = some id → next.books.lookup book = some id ∨ event = .idle id

theorem Entries.keepsEntries {cfg : WriteConfig} {router : WriteRouter} {event : Event}
    (hentries : Entries router.books router.committers router.submits) :
    KeepsEntries cfg router event := by
  intro next hstep book id hlookup
  cases move_of_step hstep with
  | @spawn event sid submit hsubmit hstage hclosed =>
      left
      change (router.books.insert submit.book router.committers.length).lookup book = some id
      rw [HashMap.lookup_insert_ite, if_neg, hlookup]
      intro hbook
      rw [hbook, hentries.lookup_of_isClosed hclosed] at hlookup
      cases hlookup
  | @deregister other committer hcommitter hphase hopen =>
      change (router.books.erase committer.book).lookup book = some id ∨ _
      rw [HashMap.lookup_erase_ite]
      by_cases hbook : book = committer.book
      · have hown := hentries.live other committer hcommitter ⟨hopen, by rw [hphase]; nofun⟩
        rw [hbook, hown] at hlookup
        cases hlookup
        exact Or.inr rfl
      · exact Or.inl ((if_neg hbook).trans hlookup)
  | _ => exact Or.inl hlookup

/-- The invariant: what is claimed of the jobs, and the map of senders. -/
structure Sound (router : WriteRouter) : Prop extends Kept router where
  entries : Entries router.books router.committers router.submits

theorem Sound.fresh : Sound fresh where
  held := ⟨fun _ => rfl, fun _ _ h => (nomatch h), fun _ _ h => (nomatch h), fun _ _ h => (nomatch h)⟩
  replies := ⟨fun _ _ _ h => (nomatch h), fun _ _ h => (nomatch h), fun _ _ _ h => (nomatch h),
    fun _ _ _ h => (nomatch h)⟩
  entries := by
    refine ⟨fun _ _ _ h => (nomatch h), fun book id hlookup => ?_, fun _ _ h => (nomatch h)⟩
    rw [WriteRouter.fresh, Finmap.lookup_empty] at hlookup
    cases hlookup

theorem Sound.step {cfg : WriteConfig} (router : WriteRouter) (event : Event) (next : WriteRouter)
    (hsound : Sound router) (hone : OneEach router event)
    (hstep : router.step cfg event = some next) : Sound next := by
  have hmove := move_of_step hstep
  exact
    { held := hsound.held.move hsound.entries hmove
      replies := hsound.replies.move hsound.held hone hmove
      entries := hsound.entries.move hmove }

/-- Over every run in which the store gives one result for each draft, no job
is lost, passed on twice or to the wrong committer, each reply is the result at
the job's own position, and no committer takes another one's entry away. -/
theorem jobs_kept (cfg : WriteConfig) (events : List Event)
    (hone : StepsMeet (step cfg) OneEach fresh events) :
    StatesMeet (step cfg) Kept fresh events ∧
      StepsMeet (step cfg) (KeepsEntries cfg) fresh events :=
  invariant_run Sound.step (fun _ hsound => hsound.toKept)
    (fun _ _ hsound _ => hsound.entries.keepsEntries) Sound.fresh hone

/-- A transaction without postings; the router looks at its book alone. -/
def draft (id : ℕ) : Transaction :=
  ⟨⟨id⟩, ⟨"b"⟩, [], ⟨toString id⟩, [], "null", 0⟩

/-- A committer goes idle while the second submit has its sender in hand and
the third looks one up; both committers then commit side by side. -/
def overlap : List Event :=
  let ok (seq : Int) : Committing := .ok ⟨⟨0⟩, seq, 0⟩
  [.submit (draft 0), .poll 0, .poll 0, .submit (draft 1), .poll 1, .run 0, .run 0,
    .answer 0 [ok 1], .idle 0, .submit (draft 2), .poll 2, .poll 1, .run 0, .poll 2, .run 1,
    .run 0, .run 0, .run 1, .answer 1 [ok 2], .answer 0 [ok 3], .run 0, .poll 0, .poll 1, .poll 2]

theorem jobs_kept_overlap :
    ∃ final, execSteps (step ⟨2, 2⟩) fresh overlap = some final ∧ final.committers.length = 2 ∧
      final.calls.length = 3 ∧ Kept final := by
  have hone : StepsMeet (step ⟨2, 2⟩) OneEach fresh overlap := by
    decide +kernel
  have hlengths : ∃ final ∈ execSteps (step ⟨2, 2⟩) fresh overlap,
      final.committers.length = 2 ∧ final.calls.length = 3 := by
    decide +kernel
  obtain ⟨final, hexec, hcommitters, hcalls⟩ := hlengths
  exact ⟨final, hexec, hcommitters, hcalls, (jobs_kept ⟨2, 2⟩ overlap hone).1.last hexec⟩

end Talea.Service
