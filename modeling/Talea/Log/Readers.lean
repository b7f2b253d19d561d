import Talea.Log.Moments

/-!
# Reading the log while it is written

A reader first looks at the state for the seq below which everything is
applied, then takes the catalog, and then reads one file after the other; the
writer may go on between any two of these looks.  What the reader returns are
the events that were applied at its first look.
-/

namespace Talea.Log

open FrameScan

variable {rt : Runtime}

/-! ## Scanning -/

inductive ScanError
  | missing (base : Int)
  | decode (base : Int) (offset : ℕ)
  deriving DecidableEq

/-- The frames of one file, until there are `limit` results. -/
def collect (fromSeq : Int) (limit : ℕ) :
    List WireEvent → List (WireEvent × ℕ) → List WireEvent
  | results, [] => results
  | results, (ev, _) :: items =>
      if limit ≤ results.length then results
      else collect fromSeq limit (if fromSeq ≤ ev.seq then results ++ [ev] else results) items

/-- The files with the given bases, each as it is when it is read.  A frame
that does not decode ends the scan, and is an error in all but the last file of
the catalog. -/
def scanFiles (rt : Runtime) (read : Int → Option (List UInt8)) (fromSeq : Int) (limit : ℕ) :
    List WireEvent → List Int → Except ScanError (List WireEvent)
  | results, [] => .ok results
  | results, base :: rest =>
      if limit ≤ results.length then .ok results
      else
        match read base with
        | none => .error (.missing base)
        | some bytes =>
            let scan := (frameDecoder rt).scan bytes
            let results := collect fromSeq limit results scan.items
            if limit ≤ results.length then .ok results
            else
              match scan.stop with
              | none => scanFiles rt read fromSeq limit results rest
              | some _ => if rest = [] then .ok results else .error (.decode base scan.used)

/-- The bytes of a file. -/
def Shared.read (shared : Shared) (base : Int) : Option (List UInt8) :=
  (shared.segments.files.find? fun segment => segment.base = base).map Segment.bytes

/-- When a reader takes its looks: at the state, at the catalog, and at each of
the files. -/
structure Schedule where
  ceilingAt : ℕ
  catalogAt : ℕ
  readAt : Int → ℕ
  catalog_le : ceilingAt ≤ catalogAt
  read_le : ∀ base, catalogAt ≤ readAt base

/-- Scan ascending with `seq ≥ from`, at most `limit` events. -/
def scanFrom (rt : Runtime) (shared : ℕ → Shared) (schedule : Schedule) (fromSeq : Int)
    (limit : ℕ) : Except ScanError (List WireEvent) :=
  if limit = 0 then .ok []
  else
    let files := (shared schedule.catalogAt).segments.files
    let snapshot := files.filter fun segment => startBase fromSeq files ≤ segment.base
    scanFiles rt (fun base => (shared (schedule.readAt base)).read base) fromSeq limit []
      (snapshot.map Segment.base)

/-- The highest seq that is applied. -/
def Shared.ceiling (shared : Shared) : Int :=
  shared.state.nextSeq - 1

def readEvents (rt : Runtime) (shared : ℕ → Shared) (schedule : Schedule) (fromSeq : Int)
    (limit : ℕ) : Except ScanError (List WireEvent) :=
  (scanFrom rt shared schedule fromSeq limit).map fun wires =>
    wires.takeWhile fun wire => wire.seq ≤ (shared schedule.ceilingAt).ceiling

/-! ## One file after the other -/

theorem collect_eq (fromSeq : Int) (limit : ℕ) {results : List WireEvent}
    (hresults : results.length ≤ limit) (items : List (WireEvent × ℕ)) :
    collect fromSeq limit results items =
      (results ++ (items.map Prod.fst).filter fun ev => fromSeq ≤ ev.seq).take limit := by
  induction items generalizing results with
  | nil => simp [collect, List.take_of_length_le hresults]
  | cons item items ih =>
      obtain ⟨ev, used⟩ := item
      unfold collect
      split
      · next hfull => rw [List.take_append_of_le_length hfull, List.take_of_length_le hresults]
      · next hroom =>
          rw [List.map_cons]
          by_cases hwanted : fromSeq ≤ ev.seq
          · rw [if_pos hwanted, ih (by rw [List.length_append, List.length_singleton]; omega),
              List.filter_cons_of_pos (by simpa using hwanted), List.append_assoc]
            rfl
          · rw [if_neg hwanted, ih hresults, List.filter_cons_of_neg (by simpa using hwanted)]

theorem Segment.map_fst_items (segment : Segment) :
    ((frameDecoder rt).scan segment.bytes).items.map Prod.fst =
      (segment.events rt).map Prod.fst :=
  segment.map_fst_events.symm

/-- Reading files as a scan without a limit finds them. -/
theorem scanFiles_eq {read : Int → Option (List UInt8)} {fromSeq : Int} {limit : ℕ}
    {files : List Segment} (hread : ∀ segment ∈ files, read segment.base = some segment.bytes)
    {items : List (WireEvent × FramePos)} (hscan : scanSegments rt fromSeq files = .ok items)
    {results : List WireEvent} (hresults : results.length ≤ limit) :
    scanFiles rt read fromSeq limit results (files.map Segment.base) =
      .ok ((results ++ items.map Prod.fst).take limit) := by
  induction files generalizing results items with
  | nil =>
      cases hscan
      simp [scanFiles, List.take_of_length_le hresults]
  | cons segment rest ih =>
      rw [List.map_cons]
      unfold scanFiles
      split
      · next hfull => rw [List.take_append_of_le_length hfull, List.take_of_length_le hresults]
      next hroom =>
      rw [hread segment List.mem_cons_self]
      dsimp only
      rw [collect_eq fromSeq limit hresults, segment.map_fst_items]
      unfold scanSegments at hscan
      dsimp only at hscan
      have hhere : (((segment.events rt).filter fun item => fromSeq ≤ item.1.seq).map Prod.fst) =
          ((segment.events rt).map Prod.fst).filter fun ev => fromSeq ≤ ev.seq := by
        rw [List.filter_map]
        rfl
      split
      · next hfull =>
          -- the limit is reached in this file
          obtain ⟨later, hitems⟩ : ∃ later, items =
              ((segment.events rt).filter fun item => fromSeq ≤ item.1.seq) ++ later := by
            split at hscan
            · split at hscan
              · exact ⟨[], by simpa using hscan.symm⟩
              · simp at hscan
            · rw [Except.bind_eq_ok] at hscan
              obtain ⟨later, -, hlater⟩ := hscan
              exact ⟨later, by simpa using hlater.symm⟩
          rw [List.length_take] at hfull
          rw [hitems, List.map_append, hhere, ← List.append_assoc,
            List.take_append_of_le_length (hfull.trans (min_le_right _ _))]
      next hshort =>
      have hall : ∀ more : List WireEvent, limit > (List.take limit more).length →
          List.take limit more = more := by
        intro more hlt
        rw [List.length_take] at hlt
        exact List.take_of_length_le (by omega)
      have htake := hall _ (not_le.1 hshort)
      cases hstop : ((frameDecoder rt).scan segment.bytes).stop with
      | some err =>
          rw [hstop] at hscan
          dsimp only at hscan ⊢
          split at hscan
          · next hrest =>
              cases hscan
              rw [hrest, List.map_nil, if_pos rfl, hhere]
          · simp at hscan
      | none =>
          rw [hstop] at hscan
          dsimp only at hscan ⊢
          rw [Except.bind_eq_ok] at hscan
          obtain ⟨later, hlater, hitems⟩ := hscan
          cases hitems
          rw [ih (fun other hother => hread other (List.mem_cons_of_mem _ hother)) hlater
            (List.length_take_le _ _), htake, List.map_append, hhere, List.append_assoc]

/-! ## Files that grow between two looks -/

theorem SealedHold.split {first : Int} {sealed more : List Segment} {grown : Segment}
    {before : List WireEvent} (hsealed : SealedHold rt first (sealed ++ grown :: more) before) :
    ∃ here grownEvents later, before = here ++ grownEvents ++ later ∧
      SealedHold rt first sealed here ∧ grown.base = first + here.length ∧
      grown.bytes = frames (frameBytes rt) grownEvents := by
  induction sealed generalizing first before with
  | nil =>
      obtain ⟨here, later, rfl, -, hbase, hbytes, -⟩ := hsealed
      exact ⟨[], here, later, rfl, rfl, by simpa using hbase, hbytes⟩
  | cons segment sealed ih =>
      obtain ⟨block, rest, rfl, hne, hbase, hbytes, hrest⟩ := hsealed
      obtain ⟨here, grownEvents, later, rfl, hhold, hgrown, hgrownBytes⟩ := ih hrest
      refine ⟨block ++ here, grownEvents, later, by simp,
        ⟨block, here, rfl, hne, hbase, hbytes, hhold⟩, ?_, hgrownBytes⟩
      rw [hgrown, List.length_append]
      push_cast
      ring

theorem map_fst_logEvents_append (left right : List Segment) :
    (logEvents rt (left ++ right)).map Prod.fst =
      (logEvents rt left).map Prod.fst ++ (logEvents rt right).map Prod.fst := by
  simp [logEvents]

namespace Shared

variable {earlier later : Shared} {start : ℕ}

/-- The log only grows. -/
theorem Extends.events_isPrefix (hext : earlier.Extends later) :
    earlier.events rt <+: later.events rt := by
  obtain ⟨grown, more, hfiles, -, hbytes⟩ := hext.files
  have hactive : (earlier.segments.active.events rt).map Prod.fst <+:
      (grown.events rt).map Prod.fst := by
    rw [Segment.map_fst_events, Segment.map_fst_events]
    exact FrameScan.events_isPrefix _ hbytes
  unfold Shared.events
  rw [hfiles, SegmentSet.files, map_fst_logEvents_append, map_fst_logEvents_append]
  refine (List.prefix_append_right_inj _).2 ?_
  simp only [logEvents, List.flatMap_cons, List.flatMap_nil, List.append_nil, List.map_append]
  exact hactive.trans (List.prefix_append ..)

/-- The sealed files of one moment and the active one as it is later hold a
first part of the later log. -/
theorem Extends.stored (hext : earlier.Extends later) (hsound : later.Sound rt start) :
    ∃ grown before last tail, grown ∈ later.segments.files ∧
      grown.base = earlier.segments.active.base ∧
      (∀ segment ∈ earlier.segments.sealed, segment ∈ later.segments.files) ∧
      Stored rt earlier.segments.sealed grown before last tail ∧
      earlier.events rt <+: before ++ last ∧ before ++ last <+: later.events rt := by
  obtain ⟨grown, more, hfiles, hbase, hbytes⟩ := hext.files
  obtain ⟨_, tail, hholds⟩ := hsound.holds
  obtain ⟨before, last, -, hstored⟩ := hholds.stored
  have hmem : grown ∈ later.segments.files := by simp [hfiles]
  have hsealed : ∀ segment ∈ earlier.segments.sealed, segment ∈ later.segments.files :=
    fun segment hsegment => by simp [hfiles, hsegment]
  have hview : ∃ before last tail, Stored rt earlier.segments.sealed grown before last tail := by
    rcases List.eq_nil_or_concat' more with rfl | ⟨middle, active, rfl⟩
    · obtain ⟨hsame, hactive⟩ := List.append_inj' hfiles rfl
      obtain rfl : later.segments.active = grown := by simpa using hactive
      exact ⟨before, last, tail, hsame ▸ hstored⟩
    · rw [← List.cons_append, ← List.append_assoc] at hfiles
      obtain ⟨hsame, -⟩ := List.append_inj' hfiles rfl
      have hhold := hstored.sealed_hold
      rw [hsame] at hhold
      obtain ⟨here, grownEvents, rest, rfl, hhere, hgrown, hgrownBytes⟩ := hhold.split
      refine ⟨here, grownEvents, [], hhere, hgrown, by rw [hgrownBytes, List.append_nil],
        Or.inl rfl, fun ev hev => hstored.fits ev (by simp at hev ⊢; tauto), ?_⟩
      have hnumbered := hstored.numbered
      rw [List.append_assoc, numbered_append] at hnumbered
      exact hnumbered.1
  obtain ⟨before, last, tail, hstored⟩ := hview
  have hevents := hstored.map_fst_logEvents
  refine ⟨grown, before, last, tail, hmem, hbase, hsealed, hstored, ?_, ?_⟩
  · rw [← hevents, Shared.events, SegmentSet.files, map_fst_logEvents_append, map_fst_logEvents_append]
    refine (List.prefix_append_right_inj _).2 ?_
    simp only [logEvents, List.flatMap_cons, List.flatMap_nil, List.append_nil]
    rw [Segment.map_fst_events, Segment.map_fst_events]
    exact FrameScan.events_isPrefix _ hbytes
  · have hsplit : later.segments.files = (earlier.segments.sealed ++ [grown]) ++ more := by
      simp [hfiles]
    rw [← hevents, Shared.events, hsplit, map_fst_logEvents_append (_ ++ _)]
    exact List.prefix_append ..

end Shared

/-! ## What a scan returns -/

theorem startBase_eq (fromSeq : Int) (files : List Segment) :
    startBase fromSeq files =
      (((files.map Segment.base).filter fun base => base ≤ fromSeq).getLast?).getD
        ((files.map Segment.base).head?.getD fromSeq) := by
  rw [List.filter_map, List.getLast?_map, List.head?_map]
  unfold startBase
  have hfilter : files.filter ((fun base => decide (base ≤ fromSeq)) ∘ Segment.base) =
      files.filter fun segment => decide (segment.base ≤ fromSeq) := rfl
  rw [hfilter]
  cases (files.filter fun segment => decide (segment.base ≤ fromSeq)).getLast? <;> rfl

theorem map_base_filter (fromSeq : Int) {left right : List Segment}
    (hbases : left.map Segment.base = right.map Segment.base) :
    (left.filter fun segment => startBase fromSeq left ≤ segment.base).map Segment.base =
      (right.filter fun segment => startBase fromSeq right ≤ segment.base).map Segment.base := by
  have hstart : startBase fromSeq left = startBase fromSeq right := by
    rw [startBase_eq, startBase_eq, hbases]
  have hmap : ∀ files : List Segment,
      (files.filter fun segment => startBase fromSeq right ≤ segment.base).map Segment.base =
        (files.map Segment.base).filter fun base => startBase fromSeq right ≤ base := by
    intro files
    rw [List.filter_map]
    rfl
  rw [hstart, hmap, hmap, hbases]

/-- A file is found under its base. -/
theorem Shared.Sound.read_eq {shared : Shared} {start : ℕ} (hsound : shared.Sound rt start)
    {segment : Segment} (hmem : segment ∈ shared.segments.files) :
    shared.read segment.base = some segment.bytes := by
  obtain ⟨_, tail, hholds⟩ := hsound.holds
  obtain ⟨before, last, -, hstored⟩ := hholds.stored
  have hpairs := hstored.pairwise
  change shared.segments.files.Pairwise (Segment.Precedes rt) at hpairs
  unfold Shared.read
  generalize shared.segments.files = files at hmem hpairs ⊢
  induction files with
  | nil => simp at hmem
  | cons head rest ih =>
      rw [List.pairwise_cons] at hpairs
      rcases List.mem_cons.1 hmem with rfl | hrest
      · simp
      · have hne : head.base ≠ segment.base := (hpairs.1 segment hrest).1.ne
        rw [List.find?_cons_of_neg (by simpa using hne)]
        exact ih hrest hpairs.2

section Timeline

variable {start : ℕ} {shared : ℕ → Shared}

/-- A scan returns the first events it is asked for of a log that is at least
the one at the time the catalog was taken, and not later than its looks. -/
theorem Timeline.scanFrom (htimeline : Timeline rt start shared) (schedule : Schedule)
    (fromSeq : Int) (limit : ℕ) :
    ∃ events base, Log.scanFrom rt shared schedule fromSeq limit =
        .ok ((events.filter fun ev => fromSeq ≤ ev.seq).take limit) ∧
      Numbered 1 events ∧ (shared schedule.catalogAt).events rt <+: events ∧
      events <+: (shared (schedule.readAt base)).events rt := by
  have hlater := schedule.read_le (shared schedule.catalogAt).segments.active.base
  unfold Log.scanFrom
  by_cases hlimit : limit = 0
  · refine ⟨(shared schedule.catalogAt).events rt, _, ?_, (htimeline.sound _).valid.numbered,
      List.prefix_rfl, (htimeline.grows _ _ hlater).events_isPrefix⟩
    rw [if_pos hlimit, hlimit, List.take_zero]
  rw [if_neg hlimit]
  dsimp only
  -- the last file of the catalog is the only one that may still grow
  obtain ⟨grown, before, last, tail, hgrown, hbase, -, hstored, hold, hnew⟩ :=
    (htimeline.grows _ _ hlater).stored (htimeline.sound _)
  have hbases : (shared schedule.catalogAt).segments.files.map Segment.base =
      ((shared schedule.catalogAt).segments.sealed ++ [grown]).map Segment.base := by
    simp [SegmentSet.files, hbase]
  have hread : ∀ segment ∈ (shared schedule.catalogAt).segments.sealed ++ [grown],
      (shared (schedule.readAt segment.base)).read segment.base = some segment.bytes := by
    intro segment hsegment
    rcases List.mem_append.1 hsegment with hsealed | hlast
    · obtain ⟨_, _, _, _, -, -, hmem, -⟩ :=
        (htimeline.grows _ _ (schedule.read_le segment.base)).stored (htimeline.sound _)
      exact (htimeline.sound _).read_eq (hmem segment hsealed)
    · rw [List.mem_singleton.1 hlast, hbase]
      rw [← hbase]
      exact (htimeline.sound _).read_eq (hbase ▸ hgrown)
  have hscan := hstored.scanWithPos fromSeq
  unfold Log.scanWithPos at hscan
  rw [map_base_filter fromSeq hbases, scanFiles_eq
    (fun segment hsegment => hread segment (List.mem_of_mem_filter hsegment)) hscan (Nat.zero_le _)]
  refine ⟨before ++ last, _, ?_, hstored.numbered, hold, hnew⟩
  rw [List.nil_append, ← hstored.map_fst_logEvents, List.filter_map]
  rfl

/-- The first events of a numbered log are the ones below a seq. -/
theorem Numbered.filter_lt_eq_take {first : Int} {events : List WireEvent}
    (hnumbered : Numbered first events) (count : ℕ) :
    (events.filter fun ev => ev.seq < first + count) = events.take count := by
  induction events generalizing first count with
  | nil => simp
  | cons ev events ih =>
      cases count with
      | zero =>
          rw [List.take_zero, List.filter_eq_nil_iff]
          intro other hother
          have := (hnumbered.mem_bounds hother).1
          simpa using this
      | succ count =>
          obtain ⟨hseq, hrest⟩ := (numbered_cons first ev events).1 hnumbered
          rw [List.filter_cons_of_pos (by simp [hseq]), List.take_succ_cons,
            ← ih hrest count]
          congr 2
          funext other
          push_cast
          ring_nf

theorem Numbered.takeWhile_eq_filter {first : Int} {events : List WireEvent}
    (hnumbered : Numbered first events) (bound : Int) :
    (events.takeWhile fun ev => ev.seq ≤ bound) = events.filter fun ev => ev.seq ≤ bound := by
  induction events generalizing first with
  | nil => rfl
  | cons ev events ih =>
      obtain ⟨hseq, hrest⟩ := (numbered_cons first ev events).1 hnumbered
      by_cases hle : ev.seq ≤ bound
      · rw [List.takeWhile_cons_of_pos (by simpa using hle),
          List.filter_cons_of_pos (by simpa using hle), ih hrest]
      · rw [List.takeWhile_cons_of_neg (by simpa using hle), eq_comm, List.filter_eq_nil_iff]
        intro other hother
        have := (hnumbered.mem_bounds hother).1
        simp only [decide_eq_true_eq]
        omega

/-- The applied events are the first ones of every later log. -/
theorem Timeline.applied_eq (htimeline : Timeline rt start shared) (time : ℕ)
    {events : List WireEvent} (hnumbered : Numbered 1 events)
    (hlater : (shared time).events rt <+: events) :
    (shared time).applied rt = events.filter fun ev => ev.seq ≤ (shared time).ceiling := by
  obtain ⟨count, ledger, hcount, hnextSeq, -⟩ := (htimeline.sound time).state
  have hbelow : ∀ log : List WireEvent, Numbered 1 log →
      (log.filter fun ev => ev.seq < (shared time).state.nextSeq) = log.take count := by
    intro log hlog
    rw [← hlog.filter_lt_eq_take count, hnextSeq, add_comm]
  have hceiling : ∀ ev : WireEvent, ev.seq ≤ (shared time).ceiling ↔
      ev.seq < (shared time).state.nextSeq := fun ev => Int.le_sub_one_iff
  simp only [hceiling]
  have hnow : Numbered 1 ((shared time).events rt) := (htimeline.sound time).valid.numbered
  rw [Shared.applied, hbelow _ hnow, hbelow _ hnumbered]
  obtain ⟨rest, rfl⟩ := hlater
  rw [List.take_append_of_le_length (by simpa [Shared.events] using hcount)]

theorem Numbered.filter_ge {first : Int} {events : List WireEvent}
    (hnumbered : Numbered first events) (fromSeq : Int) :
    Numbered (max fromSeq first) (events.filter fun ev => fromSeq ≤ ev.seq) := by
  induction events generalizing first with
  | nil => trivial
  | cons ev events ih =>
      obtain ⟨hseq, hrest⟩ := (numbered_cons first ev events).1 hnumbered
      by_cases hle : fromSeq ≤ ev.seq
      · have hall : (ev :: events).filter (fun other => fromSeq ≤ other.seq) = ev :: events := by
          rw [List.filter_eq_self]
          intro other hother
          have := (hnumbered.mem_bounds hother).1
          simp only [decide_eq_true_eq]
          omega
        rw [hall, max_eq_right (hseq ▸ hle)]
        exact hnumbered
      · rw [List.filter_cons_of_neg (by simpa using hle)]
        convert ih hrest using 1
        omega

/-- A read returns the events that were applied when it looked at the state. -/
theorem Timeline.readEvents (htimeline : Timeline rt start shared) (schedule : Schedule)
    (fromSeq : Int) (limit : ℕ) :
    Log.readEvents rt shared schedule fromSeq limit =
      .ok ((((shared schedule.ceilingAt).applied rt).filter fun ev =>
        fromSeq ≤ ev.seq).take limit) := by
  obtain ⟨events, -, hscan, hnumbered, hold, -⟩ := htimeline.scanFrom schedule fromSeq limit
  have hwanted := hnumbered.filter_ge fromSeq
  have happlied := htimeline.applied_eq schedule.ceilingAt hnumbered
    ((htimeline.grows _ _ schedule.catalog_le).events_isPrefix.trans hold)
  rw [Log.readEvents, hscan, happlied, List.filter_comm, ← hwanted.takeWhile_eq_filter]
  change Except.ok _ = Except.ok _
  rw [List.take_takeWhile]

/-- The log of a moment up to its watermark leads to its state. -/
theorem Timeline.state_applied (htimeline : Timeline rt start shared) (time : ℕ) :
    ∃ items ledger, items.map Prod.fst = (shared time).applied rt ∧
      BookState.initial.replay items = .ok ledger ∧
      (shared time).state.forgetIdem = ledger.forgetIdem := by
  obtain ⟨count, ledger, hcount, hnextSeq, hreplay, hsame⟩ := (htimeline.sound time).state
  refine ⟨_, ledger, ?_, hreplay, hsame⟩
  have hnow : Numbered 1 ((shared time).events rt) := (htimeline.sound time).valid.numbered
  rw [Shared.applied, hnextSeq, add_comm, hnow.filter_lt_eq_take count, List.map_take]
  rfl

end Timeline

/-! ## The watermark -/

/-- Readers get the first events they ask for among those that are applied when
they look, in order and without a gap; and these are the events that have led
to the state. -/
structure Watermarked (rt : Runtime) (shared : ℕ → Shared) : Prop where
  reads : ∀ schedule fromSeq limit, readEvents rt shared schedule fromSeq limit =
    .ok ((((shared schedule.ceilingAt).applied rt).filter fun ev => fromSeq ≤ ev.seq).take limit)
  contiguous : ∀ time fromSeq,
    Numbered (max fromSeq 1) (((shared time).applied rt).filter fun ev => fromSeq ≤ ev.seq)
  state : ∀ time, ∃ items ledger, items.map Prod.fst = (shared time).applied rt ∧
    BookState.initial.replay items = .ok ledger ∧
    (shared time).state.forgetIdem = ledger.forgetIdem

theorem Timeline.watermarked {start : ℕ} {shared : ℕ → Shared}
    (htimeline : Timeline rt start shared) : Watermarked rt shared where
  reads := htimeline.readEvents
  contiguous time fromSeq := by
    have hnow : Numbered 1 ((shared time).events rt) := (htimeline.sound time).valid.numbered
    rw [htimeline.applied_eq time hnow List.prefix_rfl, List.filter_comm,
      ← (hnow.filter_ge fromSeq).takeWhile_eq_filter]
    exact (hnow.filter_ge fromSeq).of_isPrefix (List.takeWhile_prefix _)
  state := htimeline.state_applied

/-! ## A writer that fails -/

namespace Served

variable {served : Served}

/-- The turn ends the writer of the book. -/
def EndsWriter (rt : Runtime) (served : Served) (turn : Turn) : Prop :=
  (∃ writer, served.run.status = .live writer) ∧
    ∃ disk, (served.turn rt turn).run.status = .stopped disk

/-- The answers that a turn sends to its jobs. -/
def answers (rt : Runtime) (served : Served) (turn : Turn) : List (ℕ × Answer) :=
  match served.run.status, turn with
  | .live writer, .batch input =>
      match writer.batch rt allReadable input with
      | .done result => result.sends
      | .killed _ => []
  | _, _ => []

/-- All answers of a number of turns. -/
def allAnswers (rt : Runtime) : Served → List Turn → List (ℕ × Answer)
  | _, [] => []
  | served, turn :: turns => served.answers rt turn ++ allAnswers rt (served.turn rt turn) turns

/-- From this turn on the state stays as it is and nothing is published or
answered. -/
structure StopsForGood (rt : Runtime) (served : Served) (turns : List Turn) : Prop where
  seen : ∀ moment ∈ served.life rt turns,
    moment.state = served.shared.state ∧ moment.sent = served.shared.sent
  silent : served.allAnswers rt turns = []
  stopped : ∃ disk, (turns.foldl (Served.turn rt) served).run.status = .stopped disk
  answered : (turns.foldl (Served.turn rt) served).run.answered = served.run.answered
  published : (turns.foldl (Served.turn rt) served).run.published = served.run.published

theorem StopsForGood.cons {turn : Turn} {turns : List Turn}
    (hseen : ∀ moment ∈ served.moments rt turn,
      moment.state = served.shared.state ∧ moment.sent = served.shared.sent)
    (hsilent : served.answers rt turn = [])
    (hanswered : (served.turn rt turn).run.answered = served.run.answered)
    (hpublished : (served.turn rt turn).run.published = served.run.published)
    (hrest : (served.turn rt turn).StopsForGood rt turns) :
    served.StopsForGood rt (turn :: turns) := by
  have hshared : (served.turn rt turn).shared.state = served.shared.state ∧
      (served.turn rt turn).shared.sent = served.shared.sent := by
    rcases List.eq_nil_or_concat' (served.moments rt turn) with hnil | ⟨before, last, hconcat⟩
    · rw [Served.turn, hnil]
      exact ⟨rfl, rfl⟩
    · rw [Served.turn, hconcat, List.getLast?_concat, Option.getD_some]
      exact hseen last (hconcat ▸ List.mem_append_right _ (by simp))
  refine ⟨fun moment hmoment => ?_, ?_, hrest.stopped, hrest.answered.trans hanswered,
    hrest.published.trans hpublished⟩
  swap
  · rw [allAnswers, hsilent, hrest.silent, List.append_nil]
  rcases List.mem_append.1 hmoment with hhere | hlater
  · exact hseen moment hhere
  · obtain ⟨hstate, hsent⟩ := hrest.seen moment hlater
    exact ⟨hstate.trans hshared.1, hsent.trans hshared.2⟩

/-- A book without a writer. -/
theorem stopsForGood_of_stopped {disk : Disk} (hstopped : served.run.status = .stopped disk)
    (turns : List Turn) : served.StopsForGood rt turns := by
  induction turns generalizing served disk with
  | nil => exact ⟨by simp [life], rfl, ⟨disk, hstopped⟩, rfl, rfl⟩
  | cons turn turns ih =>
      have hmoments : served.moments rt turn = [] := by simp [moments, hstopped]
      have hnext : (∃ disk, (served.turn rt turn).run.status = .stopped disk) ∧
          (served.turn rt turn).run.answered = served.run.answered ∧
          (served.turn rt turn).run.published = served.run.published := by
        cases turn with
        | batch input => simp [Served.turn, Turn.action, Run.step, Run.batch, hstopped]
        | fail input point => simp [Served.turn, Turn.action, Run.step, Run.failStop, hstopped]
        | land idx io =>
            simp only [Served.turn, Turn.action, Run.step, Run.land]
            cases served.run.tasks[idx]? with
            | none => exact ⟨⟨disk, hstopped⟩, rfl, rfl⟩
            | some task =>
                obtain ⟨task, own⟩ := task
                cases own <;> simp [hstopped, Status.withSnaps, Status.clearInflight]
      obtain ⟨⟨disk', hdisk'⟩, hanswered, hpublished⟩ := hnext
      exact .cons (by simp [hmoments]) (by simp [answers, hstopped]) hanswered hpublished
        (ih hdisk')

variable {start : ℕ}

theorem stopsForGood_of_ends (hinv : served.Inv rt start) {turn : Turn}
    (hends : served.EndsWriter rt turn) (turns : List Turn) :
    served.StopsForGood rt (turn :: turns) := by
  obtain ⟨⟨writer, hlive⟩, disk, hstopped⟩ := hends
  have hrest : (served.turn rt turn).StopsForGood rt turns :=
    stopsForGood_of_stopped hstopped turns
  obtain ⟨-, hstate, -⟩ := hinv.live writer hlive
  cases turn with
  | land idx io =>
      have hmoments : served.moments rt (.land idx io) = [] := by simp [moments, hlive]
      refine .cons (by simp [hmoments]) (by simp [answers, hlive]) ?_ ?_ hrest
      all_goals
        simp only [Served.turn, Turn.action, Run.step, Run.land]
        cases served.run.tasks[idx]? <;> rfl
  | fail input point =>
      refine .cons ?_ (by simp [answers, hlive]) ?_ ?_ hrest
      · intro moment hmoment
        simp only [moments, hlive] at hmoment
        split at hmoment
        · obtain ⟨left, -, rfl⟩ := List.mem_map.1 hmoment
          exact ⟨hstate.symm, rfl⟩
        · simp at hmoment
      all_goals
        simp only [Served.turn, Turn.action, Run.step, Run.failStop, hlive]
        cases (writer.batchTrace rt allReadable input)[point]? <;> rfl
  | batch input =>
      cases hbatch : writer.batch rt allReadable input with
      | done result =>
          simp [Served.turn, Turn.action, Run.step, Run.batch, hlive, hbatch] at hstopped
      | killed left =>
          refine .cons ?_ (by simp [answers, hlive, hbatch]) ?_ ?_ hrest
          · intro moment hmoment
            simp only [moments, hlive, Writer.moments, hbatch, List.append_nil] at hmoment
            obtain ⟨left, -, rfl⟩ := List.mem_map.1 hmoment
            exact ⟨hstate.symm, rfl⟩
          all_goals
            simp [Served.turn, Turn.action, Run.step, Run.batch, hlive, hbatch, Run.stop]

/-- A batch whose write phase fails at some point ends the writer. -/
theorem endsWriter_fail {writer : Writer} (hlive : served.run.status = .live writer)
    {input : BatchInput} {point : ℕ}
    (hpoint : point < (writer.batchTrace rt allReadable input).length) :
    served.EndsWriter rt (.fail input point) := by
  refine ⟨⟨writer, hlive⟩, ?_⟩
  simp [Served.turn, Turn.action, Run.step, Run.failStop, hlive, Run.stop,
    List.getElem?_eq_getElem hpoint]

end Served

theorem Served.Inv.foldl {start : ℕ} {served : Served} (hinv : served.Inv rt start)
    (turns : List Turn) : (turns.foldl (Served.turn rt) served).Inv rt start := by
  induction turns generalizing served with
  | nil => exact hinv
  | cons turn turns ih => exact ih (hinv.turn turn).1

/-- On the handles of every writer that a run has started, whatever its turns
are: readers see the watermark, every failure of the write phase ends the
writer, and from its end on the state is as it was before that batch and nobody
is answered. -/
theorem durability_watermark (rt : Runtime) (opts : LogStoreOptions) (io : SpillIo)
    (actions : List Action) (turns : List Turn) :
    match (Run.exec rt opts io actions).status with
    | .stopped _ => True
    | .live writer =>
        let served := (Run.exec rt opts io actions).serve writer
        Watermarked rt (served.atTime rt turns) ∧
          ∀ before after, turns = before ++ after →
            let here := before.foldl (Served.turn rt) served
            (∀ writer input point, here.run.status = .live writer →
              point < (writer.batchTrace rt allReadable input).length →
              here.EndsWriter rt (.fail input point)) ∧
            ∀ turn ∈ after.head?, here.EndsWriter rt turn → here.StopsForGood rt after := by
  cases hstatus : (Run.exec rt opts io actions).status with
  | stopped disk => trivial
  | live writer =>
      have hinv := (RunInv.exec rt opts io actions).serve hstatus
      refine ⟨(hinv.timeline turns).watermarked, fun before after _ => ⟨?_, ?_⟩⟩
      · exact fun writer input point hlive hpoint => Served.endsWriter_fail hlive hpoint
      · intro turn hturn hends
        cases after with
        | nil => simp at hturn
        | cons first after =>
            cases hturn
            exact Served.stopsForGood_of_ends (hinv.foldl before) hends after

end Talea.Log
