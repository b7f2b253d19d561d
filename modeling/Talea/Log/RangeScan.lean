import Talea.Log.BinaryRuntime
import Talea.Log.Readers

/-!
# Range scans of a catalog

`scanFrom` and `scanWithPos` go through the segment files from the last one
whose base is not above the requested seq, frame by frame, until they have as
many events as they were asked for.  A frame that does not decode ends the scan
of the newest file and is an error in any other.
-/

namespace Talea.Log

open FrameScan

namespace SegmentCatalog

variable {α : Type}

section Loop

variable (rt : Runtime) (emit : WireEvent × FramePos → α) (fromSeq : Int) (limit : ℕ)

/-- The frames of one file from `offset` on, until there are `limit` results. -/
def collectFrames (base : Int) : ℕ → List α → List (WireEvent × ℕ) → List α
  | _, results, [] => results
  | offset, results, (ev, used) :: items =>
      if limit ≤ results.length then results
      else
        collectFrames base (offset + used)
          (if fromSeq ≤ ev.seq then results ++ [emit (ev, (base, offset))] else results) items

/-- The files one after the other, until there are `limit` results. -/
def collectFiles (lastBase : Int) : List α → List Segment → Except ScanError (List α)
  | results, [] => .ok results
  | results, segment :: rest =>
      if limit ≤ results.length then .ok results
      else
        let scan := (frameDecoder rt).scan segment.bytes
        let results := collectFrames emit fromSeq limit segment.base 0 results scan.items
        match scan.stop with
        | none => collectFiles lastBase results rest
        | some _ =>
            -- a full result list leaves the loop before the bad frame is decoded
            if limit ≤ results.length ∨ segment.base = lastBase then .ok results
            else .error (.decode segment.base scan.used)

def scan (files : List Segment) : Except ScanError (List α) :=
  if limit = 0 then .ok []
  else
    match files.getLast? with
    | none => .ok []
    | some last =>
        collectFiles rt emit fromSeq limit last.base []
          (files.filter fun segment => startBase fromSeq files ≤ segment.base)

end Loop

/-- Scan ascending with `seq ≥ from`, at most `limit` events. -/
def scanFrom (rt : Runtime) (fromSeq : Int) (limit : ℕ) (files : List Segment) :
    Except ScanError (List WireEvent) :=
  scan rt Prod.fst fromSeq limit files

/-- Like `scanFrom`, each event with the position of its frame. -/
def scanWithPos (rt : Runtime) (fromSeq : Int) (limit : ℕ) (files : List Segment) :
    Except ScanError (List (WireEvent × FramePos)) :=
  scan rt id fromSeq limit files

/-! ## One file after the other -/

variable {rt : Runtime} {emit : WireEvent × FramePos → α} {fromSeq : Int} {limit : ℕ}

/-- What a scan makes of the events it comes by. -/
def wanted (emit : WireEvent × FramePos → α) (fromSeq : Int)
    (items : List (WireEvent × FramePos)) : List α :=
  (items.filter fun item => fromSeq ≤ item.1.seq).map emit

theorem wanted_append (left right : List (WireEvent × FramePos)) :
    wanted emit fromSeq (left ++ right) = wanted emit fromSeq left ++ wanted emit fromSeq right := by
  simp [wanted]

theorem take_take_append (left right : List α) :
    (left.take limit ++ right).take limit = (left ++ right).take limit := by
  rw [List.take_append, List.take_append, List.take_take, min_self, List.length_take]
  congr 2
  omega

theorem collectFrames_eq (base : Int) {results : List α} (hresults : results.length ≤ limit)
    (offset : ℕ) (items : List (WireEvent × ℕ)) :
    collectFrames emit fromSeq limit base offset results items =
      (results ++ wanted emit fromSeq (placeItems base offset items)).take limit := by
  induction items generalizing results offset with
  | nil => simp [collectFrames, placeItems, wanted, List.take_of_length_le hresults]
  | cons item items ih =>
      obtain ⟨ev, used⟩ := item
      unfold collectFrames
      split
      · next hfull => rw [List.take_append_of_le_length hfull, List.take_of_length_le hresults]
      next hroom =>
      rw [placeItems, wanted]
      by_cases hwanted : fromSeq ≤ ev.seq
      · rw [if_pos hwanted, ih (by rw [List.length_append, List.length_singleton]; omega),
          List.filter_cons_of_pos (by simpa using hwanted), List.map_cons, List.append_assoc]
        rfl
      · rw [if_neg hwanted, ih hresults, List.filter_cons_of_neg (by simpa using hwanted)]
        rfl

theorem collectFrames_segment {results : List α} (hresults : results.length ≤ limit)
    (segment : Segment) :
    collectFrames emit fromSeq limit segment.base 0 results
        ((frameDecoder rt).scan segment.bytes).items =
      (results ++ wanted emit fromSeq (segment.events rt)).take limit :=
  collectFrames_eq segment.base hresults 0 _

theorem collectFiles_of_full {results : List α} (hfull : limit ≤ results.length) (lastBase : Int)
    (files : List Segment) : collectFiles rt emit fromSeq limit lastBase results files =
      .ok results := by
  cases files with
  | nil => rfl
  | cons segment rest => rw [collectFiles, if_pos hfull]

/-- Files that decode to their end, in front of others. -/
theorem collectFiles_append {results : List α} (hresults : results.length ≤ limit)
    {files : List Segment}
    (hclean : ∀ segment ∈ files, ((frameDecoder rt).scan segment.bytes).stop = none)
    (lastBase : Int) (rest : List Segment) :
    collectFiles rt emit fromSeq limit lastBase results (files ++ rest) =
      collectFiles rt emit fromSeq limit lastBase
        ((results ++ wanted emit fromSeq (logEvents rt files)).take limit) rest := by
  induction files generalizing results with
  | nil => simp [logEvents, wanted, List.take_of_length_le hresults]
  | cons segment files ih =>
      have hevents : logEvents rt (segment :: files) = segment.events rt ++ logEvents rt files :=
        List.flatMap_cons
      rw [List.cons_append, collectFiles]
      split
      · next hfull =>
          rw [List.take_append_of_le_length hfull, List.take_of_length_le hresults,
            collectFiles_of_full hfull]
      next hroom =>
      dsimp only
      rw [hclean segment List.mem_cons_self]
      dsimp only
      rw [collectFrames_segment hresults, ih (List.length_take_le _ _)
        fun other hother => hclean other (List.mem_cons_of_mem _ hother), take_take_append, hevents,
        wanted_append, List.append_assoc]

/-- The newest file, whatever is behind its frames. -/
theorem collectFiles_last {results : List α} (hresults : results.length ≤ limit)
    (active : Segment) :
    collectFiles rt emit fromSeq limit active.base results [active] =
      .ok ((results ++ wanted emit fromSeq (active.events rt)).take limit) := by
  unfold collectFiles
  split
  · next hfull => rw [List.take_append_of_le_length hfull, List.take_of_length_le hresults]
  dsimp only
  rw [collectFrames_segment hresults]
  cases ((frameDecoder rt).scan active.bytes).stop with
  | none => rfl
  | some err => exact if_pos (Or.inr rfl)

/-! ## Scans of a stored log -/

variable {sealed : List Segment} {active : Segment} {before last : List WireEvent}
  {tail : List UInt8}

/-- Skipping the files before the start loses no event that is asked for. -/
theorem wanted_filter_startBase (hstored : Stored rt sealed active before last tail)
    {files : List Segment} (hfiles : ∀ segment ∈ files, segment ∈ sealed ++ [active]) :
    wanted emit fromSeq (logEvents rt (files.filter fun segment =>
        startBase fromSeq (sealed ++ [active]) ≤ segment.base)) =
      wanted emit fromSeq (logEvents rt files) := by
  unfold wanted
  rw [filter_logEvents_filter rt
    (fun segment => decide (startBase fromSeq (sealed ++ [active]) ≤ segment.base))
    (fun item => decide (fromSeq ≤ item.1.seq))]
  intro segment hmem hskip item hitem
  rw [decide_eq_false_iff_not, not_le] at hskip
  simpa using hstored.seq_lt_of_skipped (hfiles segment hmem) hskip hitem

theorem scan_eq_of_pos (hlimit : limit ≠ 0) (sealed : List Segment) (active : Segment) :
    scan rt emit fromSeq limit (sealed ++ [active]) =
      collectFiles rt emit fromSeq limit active.base []
        ((sealed ++ [active]).filter fun segment =>
          startBase fromSeq (sealed ++ [active]) ≤ segment.base) := by
  rw [scan, if_neg hlimit, List.getLast?_concat]

theorem scan_of_stored (hstored : Stored rt sealed active before last tail) :
    scan rt emit fromSeq limit (sealed ++ [active]) =
      .ok ((wanted emit fromSeq (logEvents rt (sealed ++ [active]))).take limit) := by
  by_cases hlimit : limit = 0
  · rw [scan, if_pos hlimit, hlimit, List.take_zero]
  have hactive := hstored.startBase_le_active fromSeq
  rw [scan_eq_of_pos hlimit, ← wanted_filter_startBase hstored fun _ hmem => hmem,
    List.filter_append,
    List.filter_cons_of_pos (by simpa using hactive), List.filter_nil,
    collectFiles_append (Nat.zero_le _) fun segment hmem => hstored.sealed_hold.stop_none
      (fun ev hev => hstored.fits ev (by simp [hev])) (List.mem_of_mem_filter hmem),
    collectFiles_last (List.length_take_le _ _), take_take_append, List.nil_append,
    logEvents_concat, wanted_append]

/-! ## Damage in a sealed file -/

/-- From the start of one frame of a sealed file on, its bytes are others, which
do not decode there. -/
structure SealedDamage (rt : Runtime) (sealed : List Segment) where
  left : List Segment
  segment : Segment
  right : List Segment
  sealed_eq : sealed = left ++ segment :: right
  frame : ℕ
  frame_lt : frame < (segment.events rt).length
  bad : List UInt8
  fails : ∃ err, decodeFrame rt bad = .error err

namespace SealedDamage

variable (damage : SealedDamage rt sealed)

/-- Where the damaged frame starts. -/
def offset : ℕ :=
  ((damage.segment.events rt).get ⟨damage.frame, damage.frame_lt⟩).2.2

def damaged : Segment :=
  { damage.segment with bytes := damage.segment.bytes.take damage.offset ++ damage.bad }

def files (active : Segment) : List Segment :=
  damage.left ++ damage.damaged :: (damage.right ++ [active])

/-- The scan starts at the damaged file or before it, and has fewer events than
it was asked for when it comes to the damaged frame. -/
def MustCross (fromSeq : Int) (limit : ℕ) (active : Segment) : Prop :=
  (∀ later ∈ damage.right ++ [active], fromSeq < later.base) ∧
    ((logEvents rt damage.left ++ (damage.segment.events rt).take damage.frame).filter
      fun item => fromSeq ≤ item.1.seq).length < limit

variable {damage}

/-- The damaged file has the frames in front of the damaged one, and ends its
scan there. -/
theorem scan_damaged (hstored : Stored rt sealed active before last tail) :
    ∃ err, (frameDecoder rt).scan damage.damaged.bytes =
        ⟨((frameDecoder rt).scan damage.damaged.bytes).items, some err⟩ ∧
      ((frameDecoder rt).scan damage.damaged.bytes).used = damage.offset ∧
      damage.damaged.events rt = (damage.segment.events rt).take damage.frame := by
  obtain ⟨err, herr⟩ := damage.fails
  have hmem : damage.segment ∈ sealed := 
    (congrArg (damage.segment ∈ ·) damage.sealed_eq).mpr (by simp)
  obtain ⟨here, hbytes, hsub⟩ := hstored.sealed_hold.exists_frames hmem
  have hfits : ∀ ev ∈ here, FrameFits rt ev := fun ev hev =>
    hstored.fits ev (List.mem_append_left _ (hsub ev hev))
  have hevents : damage.segment.events rt = placeFrames rt damage.segment.base 0 here :=
    Segment.events_of_frames hbytes hfits
  have hoffset : damage.offset = (frames (frameBytes rt) (here.take damage.frame)).length := by
    have hframe : (placeFrames rt damage.segment.base 0 here)[damage.frame]? =
        some ((damage.segment.events rt).get ⟨damage.frame, damage.frame_lt⟩) := by
      rw [← hevents]
      exact List.getElem?_eq_getElem damage.frame_lt
    rw [getElem?_placeFrames, Option.map_eq_some_iff] at hframe
    obtain ⟨ev, -, hev⟩ := hframe
    rw [offset, ← hev, Nat.zero_add]
  have hkept : damage.damaged.bytes =
      frames (frameBytes rt) (here.take damage.frame) ++ damage.bad := by
    rw [damaged, hbytes, hoffset]
    conv_lhs => rw [← List.take_append_drop damage.frame here, frames_append]
    rw [List.take_append_drop, List.take_left]
  have hkeptFits : ∀ ev ∈ here.take damage.frame, FrameFits rt ev := fun ev hev =>
    hfits ev (List.mem_of_mem_take hev)
  have hscan := scan_frames_append (frameBytes_encodes rt) hkeptFits damage.bad
  rw [scan_of_error (frameDecoder rt) herr, List.append_nil, ← hkept] at hscan
  refine ⟨err, by rw [hscan], ?_, ?_⟩
  · rw [hscan, Scan.used, List.map_map, hoffset]
    exact sum_map_length_frames _
  · rw [Segment.events_of_bytes hkept hkeptFits (Or.inr ⟨err, herr⟩), hevents]
    refine List.ext_getElem? fun idx => ?_
    rw [List.getElem?_take, getElem?_placeFrames, getElem?_placeFrames, List.getElem?_take]
    split
    · next hidx => rw [List.take_take, min_eq_left hidx.le]; rfl
    · rfl

/-- The damage does not change where a scan starts. -/
theorem startBase_files (fromSeq : Int) (active : Segment) :
    startBase fromSeq (damage.files active) = startBase fromSeq (sealed ++ [active]) := by
  have hbases : (damage.files active).map Segment.base =
      (damage.left ++ damage.segment :: damage.right ++ [active]).map Segment.base := by
    simp [files, damaged]
  rw [← damage.sealed_eq] at hbases
  rw [startBase_eq, startBase_eq, hbases]

theorem MustCross.startBase_le (hstored : Stored rt sealed active before last tail)
    (hcross : damage.MustCross fromSeq limit active) :
    startBase fromSeq (sealed ++ [active]) ≤ damage.segment.base := by
  have hfiles : sealed ++ [active] =
      damage.left ++ damage.segment :: (damage.right ++ [active]) := by
    conv_lhs => rw [damage.sealed_eq]
    simp
  have hpairs := hstored.pairwise
  have hmem : damage.segment ∈ sealed ++ [active] := by simp [hfiles]
  rcases startBase_spec (by simp) hpairs fromSeq with hlow | ⟨start, hstart, hbase, hle⟩
  · exact hlow _ hmem
  rw [hbase]
  rw [hfiles] at hpairs hstart
  rcases List.mem_append.1 hstart with hleft | hrest
  · exact ((List.pairwise_append.1 hpairs).2.2 start hleft _ List.mem_cons_self).1.le
  rcases List.mem_cons.1 hrest with rfl | hright
  · exact le_rfl
  · exact absurd (hcross.1 start hright) (not_lt.2 hle)

/-- A scan that comes to the damaged frame fails there. -/
theorem MustCross.scan_eq (hstored : Stored rt sealed active before last tail)
    (hcross : damage.MustCross fromSeq limit active) (emit : WireEvent × FramePos → α) :
    SegmentCatalog.scan rt emit fromSeq limit (damage.files active) =
      .error (.decode damage.segment.base damage.offset) := by
  obtain ⟨err, hscan, hused, hevents⟩ := damage.scan_damaged hstored
  have hfiles : damage.files active =
      (damage.left ++ damage.damaged :: damage.right) ++ [active] := by simp [files]
  have hstart := hcross.startBase_le hstored
  have hshort := hcross.2
  have hlimit : limit ≠ 0 := by omega
  have hmem : ∀ segment ∈ damage.left, segment ∈ sealed := fun segment hsegment =>
    (congrArg (segment ∈ ·) damage.sealed_eq).mpr (List.mem_append_left _ hsegment)
  have hkept : (damage.files active).filter (fun segment =>
        startBase fromSeq (sealed ++ [active]) ≤ segment.base) =
      damage.left.filter (fun segment =>
          startBase fromSeq (sealed ++ [active]) ≤ segment.base) ++
        damage.damaged :: (damage.right ++ [active]).filter fun segment =>
          startBase fromSeq (sealed ++ [active]) ≤ segment.base := by
    rw [files, List.filter_append]
    exact congrArg _ (List.filter_cons_of_pos
      (p := fun segment : Segment => startBase fromSeq (sealed ++ [active]) ≤ segment.base)
      (decide_eq_true hstart))
  have hclean : ∀ segment ∈ damage.left.filter (fun segment =>
      startBase fromSeq (sealed ++ [active]) ≤ segment.base),
      ((frameDecoder rt).scan segment.bytes).stop = none := fun segment hsegment =>
    hstored.sealed_hold.stop_none (fun ev hev => hstored.fits ev (by simp [hev]))
      (hmem segment (List.mem_of_mem_filter hsegment))
  have hskipped : wanted emit fromSeq (logEvents rt (damage.left.filter fun segment =>
        startBase fromSeq (sealed ++ [active]) ≤ segment.base)) =
      wanted emit fromSeq (logEvents rt damage.left) :=
    wanted_filter_startBase hstored fun segment hsegment =>
      List.mem_append_left _ (hmem segment hsegment)
  have hlength : (wanted emit fromSeq (logEvents rt damage.left) ++
      wanted emit fromSeq (damage.damaged.events rt)).length < limit := by
    rw [← wanted_append, hevents, wanted, List.length_map]
    exact hshort
  have hleft : (wanted emit fromSeq (logEvents rt damage.left)).length < limit := by
    rw [List.length_append] at hlength
    omega
  -- the damaged file is not the newest one
  have hbase : damage.damaged.base ≠ active.base := by
    have hpairs := hstored.pairwise
    exact ((List.pairwise_append.1 hpairs).2.2 damage.segment
      ((congrArg (damage.segment ∈ ·) damage.sealed_eq).mpr (by simp)) active (by simp)).1.ne
  rw [hfiles, scan_eq_of_pos hlimit, ← hfiles, damage.startBase_files, hkept,
    collectFiles_append (Nat.zero_le _) hclean, List.nil_append, hskipped,
    List.take_of_length_le hleft.le, collectFiles, if_neg (not_le.2 hleft)]
  dsimp only
  rw [collectFrames_segment hleft.le, List.take_of_length_le hlength.le, hscan]
  dsimp only
  rw [if_neg (not_or.2 ⟨not_le.2 hlength, hbase⟩), ← hscan, hused]
  rfl

end SealedDamage

end SegmentCatalog

/-! ## Layouts -/

/-- Laying events out in segment files: frames are appended, and rotations are
offered anywhere between them. -/
inductive LayoutStep
  | append (ev : WireEvent)
  | rotate

/-- The files, and the events with the positions they were appended at. -/
structure Laid where
  segments : SegmentSet
  placed : List (WireEvent × FramePos)

namespace Laid

/-- An empty directory that was just opened. -/
def fresh (segmentMax : ℕ) : Laid where
  segments := ⟨[], Segment.create 1, 0, segmentMax⟩
  placed := []

def step (rt : Runtime) (laid : Laid) : LayoutStep → Laid
  | .append ev =>
      ⟨laid.segments.append (frameBytes rt ev), laid.placed ++ [(ev, laid.segments.nextPos)]⟩
  | .rotate => ⟨laid.segments.maybeRotate (1 + laid.placed.length), laid.placed⟩

end Laid

def layOut (rt : Runtime) (segmentMax : ℕ) (steps : List LayoutStep) : Laid :=
  steps.foldl (Laid.step rt) (Laid.fresh segmentMax)

/-- The events that are laid out. -/
def laidEvents (steps : List LayoutStep) : List WireEvent :=
  steps.filterMap fun step =>
    match step with
    | .append ev => some ev
    | .rotate => none

section Layout

variable {rt : Runtime} {steps : List LayoutStep}

/-- The files hold what was laid out, where it was put. -/
theorem layOut_holds (segmentMax : ℕ) (hnumbered : Numbered 1 (laidEvents steps))
    (hfits : ∀ ev ∈ laidEvents steps, FrameFits rt ev) :
    (layOut rt segmentMax steps).segments.Holds rt (laidEvents steps) [] ∧
      logEvents rt (layOut rt segmentMax steps).segments.files =
        (layOut rt segmentMax steps).placed := by
  induction steps using List.reverseRecOn with
  | nil =>
      refine ⟨⟨rfl, [], [], rfl, rfl, rfl, rfl, Or.inl rfl, List.forall_mem_nil _, trivial⟩, ?_⟩
      change logEvents rt [Segment.create 1] = []
      simp [logEvents, Segment.events_create]
  | append_singleton steps step ih =>
      have hsplit : laidEvents (steps ++ [step]) = laidEvents steps ++ laidEvents [step] :=
        List.filterMap_append ..
      have hlaid : layOut rt segmentMax (steps ++ [step]) =
          (layOut rt segmentMax steps).step rt step := List.foldl_concat ..
      rw [hsplit, numbered_append] at hnumbered
      rw [hsplit] at hfits
      obtain ⟨hholds, hlog⟩ := ih hnumbered.1 fun ev hev => hfits ev (List.mem_append_left _ hev)
      rw [hsplit, hlaid]
      cases step with
      | append ev =>
          have hfit := hfits ev (by simp [laidEvents])
          have hseq : ev.seq = 1 + (laidEvents steps).length := hnumbered.2.1
          refine ⟨hholds.append hfit hseq, ?_⟩
          rw [Laid.step, hholds.logEvents_append hfit hseq, hlog]
      | rotate =>
          have hlength : (layOut rt segmentMax steps).placed.length = (laidEvents steps).length := by
            rw [← hlog, ← hholds.map_fst_logEvents, List.length_map]
          have hseq : 1 + ((layOut rt segmentMax steps).placed.length : Int) =
              1 + (laidEvents steps).length := by rw [hlength]
          have hnone : laidEvents [LayoutStep.rotate] = [] := rfl
          rw [hnone, List.append_nil]
          refine ⟨hholds.maybeRotate hseq, ?_⟩
          rw [Laid.step, SegmentSet.logEvents_maybeRotate, hlog]

/-- Bytes that do not decode behind the frames of the newest file. -/
theorem Stored.appendTail {sealed : List Segment} {active : Segment}
    {before last : List WireEvent} (hstored : Stored rt sealed active before last [])
    {tail : List UInt8} (htorn : Torn (frameDecoder rt) tail) :
    Stored rt sealed (active.append tail) before last tail where
  sealed_hold := hstored.sealed_hold
  base_eq := hstored.base_eq
  bytes_eq := by simp [Segment.append, hstored.bytes_eq]
  torn := htorn
  fits := hstored.fits
  numbered := hstored.numbered

/-- An event of a stored log is where its frame starts. -/
theorem Stored.frame_isPrefix {sealed : List Segment} {active : Segment}
    {before last : List WireEvent} {tail : List UInt8}
    (hstored : Stored rt sealed active before last tail) {item : WireEvent × FramePos}
    (hitem : item ∈ logEvents rt (sealed ++ [active])) :
    ∃ segment ∈ sealed ++ [active], segment.base = item.2.1 ∧
      frameBytes rt item.1 <+: segment.bytes.drop item.2.2 := by
  obtain ⟨segment, hsegment, hevent⟩ := List.mem_flatMap.1 hitem
  refine ⟨segment, hsegment, ?_⟩
  obtain ⟨here, rest, hbytes, hevents⟩ : ∃ here rest,
      segment.bytes = frames (frameBytes rt) here ++ rest ∧
        segment.events rt = placeFrames rt segment.base 0 here := by
    rcases List.mem_append.1 hsegment with hsealed | hlast
    · obtain ⟨here, hbytes, hsub⟩ := hstored.sealed_hold.exists_frames hsealed
      exact ⟨here, [], by rw [hbytes, List.append_nil], Segment.events_of_frames hbytes
        fun ev hev => hstored.fits ev (List.mem_append_left _ (hsub ev hev))⟩
    · rw [List.mem_singleton.1 hlast]
      exact ⟨last, tail, hstored.bytes_eq, hstored.active_events⟩
  rw [hevents] at hevent
  obtain ⟨idx, hidx⟩ := List.mem_iff_getElem?.1 hevent
  rw [getElem?_placeFrames, Option.map_eq_some_iff] at hidx
  obtain ⟨ev, hev, rfl⟩ := hidx
  refine ⟨rfl, ?_⟩
  dsimp only
  have hsplit : here = here.take idx ++ ev :: here.drop (idx + 1) := by
    obtain ⟨hlt, rfl⟩ := List.getElem?_eq_some_iff.1 hev
    rw [← List.drop_eq_getElem_cons hlt, List.take_append_drop]
  rw [hbytes, Nat.zero_add]
  conv_rhs => rw [hsplit, frames_append, frames_cons, List.append_assoc, List.append_assoc]
  rw [← hsplit, List.drop_left]
  exact List.prefix_append ..

end Layout

/-- Events with the seqs from one on, laid out by appends and rotations under
any maximum, with anything undecodable behind the newest frame: for every
`from` and every limit `scanFrom` returns the first `limit` events from there
on, `scanWithPos` the same ones where their frames start, and both fail at a
damaged frame of a sealed file that they have to cross. -/
theorem range_scans_exact (rt : Runtime) (segmentMax : ℕ) (steps : List LayoutStep)
    (hnumbered : Numbered 1 (laidEvents steps))
    (hfits : ∀ ev ∈ laidEvents steps, FrameFits rt ev) (tail : List UInt8)
    (htorn : Torn (frameDecoder rt) tail) (fromSeq : Int) (limit : ℕ) :
    let laid := layOut rt segmentMax steps
    let active := laid.segments.active.append tail
    let files := laid.segments.sealed ++ [active]
    laid.placed.map Prod.fst = laidEvents steps ∧
      (∀ item ∈ laid.placed, ∃ segment ∈ files, segment.base = item.2.1 ∧
        frameBytes rt item.1 <+: segment.bytes.drop item.2.2) ∧
      SegmentCatalog.scanFrom rt fromSeq limit files =
        .ok (((laidEvents steps).filter fun ev => fromSeq ≤ ev.seq).take limit) ∧
      SegmentCatalog.scanWithPos rt fromSeq limit files =
        .ok ((laid.placed.filter fun item => fromSeq ≤ item.1.seq).take limit) ∧
      ∀ damage : SegmentCatalog.SealedDamage rt laid.segments.sealed,
        damage.MustCross fromSeq limit active →
          SegmentCatalog.scanFrom rt fromSeq limit (damage.files active) =
              .error (.decode damage.segment.base damage.offset) ∧
            SegmentCatalog.scanWithPos rt fromSeq limit (damage.files active) =
              .error (.decode damage.segment.base damage.offset) := by
  intro laid active files
  obtain ⟨hholds, hlog⟩ := layOut_holds segmentMax hnumbered hfits
  have hplaced : laid.placed.map Prod.fst = laidEvents steps := by
    rw [← hlog, hholds.map_fst_logEvents]
  obtain ⟨before, last, -, hclean⟩ := hholds.stored
  have hstored : Stored rt laid.segments.sealed active before last tail :=
    hclean.appendTail htorn
  have hevents : logEvents rt files = laid.placed := by
    rw [← hlog, SegmentSet.files, logEvents_concat, logEvents_concat, hstored.active_events,
      hclean.active_events]
    rfl
  refine ⟨hplaced, fun item hitem => hstored.frame_isPrefix (hevents.symm ▸ hitem), ?_, ?_,
    fun damage hcross => ⟨hcross.scan_eq hstored Prod.fst, hcross.scan_eq hstored id⟩⟩
  · rw [SegmentCatalog.scanFrom, SegmentCatalog.scan_of_stored hstored, hevents, ← hplaced,
      SegmentCatalog.wanted, List.filter_map]
    rfl
  · rw [SegmentCatalog.scanWithPos, SegmentCatalog.scan_of_stored hstored, hevents,
      SegmentCatalog.wanted, List.map_id]

namespace RotatedLog

def asset : AssetDef :=
  ⟨⟨"USD"⟩, .fiat, 2, "US dollar"⟩

def event (seq : Int) : WireEvent :=
  ⟨seq, 0, .assetRegistered asset⟩

/-- Every file but the last one, which is empty, holds one event. -/
def steps : List LayoutStep :=
  [.append (event 1), .rotate, .append (event 2), .rotate, .append (event 3), .rotate]

end RotatedLog

theorem range_scans_exact_rotated :
    SegmentCatalog.scanFrom binaryRuntime 2 1
      ((layOut binaryRuntime 1 RotatedLog.steps).segments.sealed ++
        [(layOut binaryRuntime 1 RotatedLog.steps).segments.active.append [0]]) =
      .ok [RotatedLog.event 2] := by
  have hexact := range_scans_exact binaryRuntime 1 RotatedLog.steps ⟨rfl, rfl, rfl, trivial⟩
    (by decide +kernel) [0] (Or.inr ⟨.torn, rfl⟩) 2 1
  exact hexact.2.2.1

end Talea.Log
