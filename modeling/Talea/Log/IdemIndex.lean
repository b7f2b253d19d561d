import Talea.Log.Replay

/-!
# The idempotency index holds every committed key

What a tiered index stores is a map from committed keys to answers, spread over
a hot map and the registered run files.  The invariant below says so for the
list of all committed pairs of a log: nothing else is stored, and every pair is
in one of the two places.  Recording a key, flushing the hot map, merging the
runs and attaching an intact directory keep it, whatever I/O errors they meet,
and under it a lookup is a search in the list.
-/

namespace Talea.Log

/-- Every read of a run file works. -/
def allReadable : ℕ → Bool :=
  fun _ => true

variable {rt : Runtime}

/-! ## Bloom filter -/

namespace Bloom

theorem mightContain_insert_self (bloom : Bloom) (key : String) :
    (bloom.insert rt key).mightContain rt key = true := by
  simp only [mightContain, List.all_eq_true, decide_eq_true_eq]
  exact fun bit hbit => Finset.mem_union_right _ (List.mem_toFinset.2 hbit)

theorem mightContain_insert (bloom : Bloom) (key other : String)
    (hcontains : bloom.mightContain rt other = true) :
    (bloom.insert rt key).mightContain rt other = true := by
  simp only [mightContain, List.all_eq_true, decide_eq_true_eq] at hcontains ⊢
  exact fun bit hbit => Finset.mem_union_left _ (hcontains bit hbit)

theorem mightContain_insertAll_of (bloom : Bloom) (pairs : List (String × CommittedRec))
    {key : String} (hcontains : bloom.mightContain rt key = true) :
    (bloom.insertAll rt pairs).mightContain rt key = true := by
  induction pairs generalizing bloom with
  | nil => exact hcontains
  | cons pair pairs ih => exact ih _ (bloom.mightContain_insert pair.1 key hcontains)

/-- A filter has no false negatives. -/
theorem mightContain_insertAll (bloom : Bloom) {pairs : List (String × CommittedRec)}
    {pair : String × CommittedRec} (hmem : pair ∈ pairs) :
    (bloom.insertAll rt pairs).mightContain rt pair.1 = true := by
  induction pairs generalizing bloom with
  | nil => simp at hmem
  | cons head pairs ih =>
      rcases List.mem_cons.1 hmem with rfl | hrest
      · exact mightContain_insertAll_of _ pairs (bloom.mightContain_insert_self pair.1)
      · exact ih _ hrest

end Bloom

/-! ## Run files -/

/-- A run that holds some of the committed pairs. -/
structure RunHolds (pairs run : List (String × CommittedRec)) : Prop where
  ascending : SortedPairs.Ascending run
  ne_nil : run ≠ []
  subset : ∀ pair ∈ run, pair ∈ pairs

namespace RunDir

/-- Every run file is intact and holds committed pairs. -/
def Holds (dir : RunDir) (pairs : List (String × CommittedRec)) : Prop :=
  ∀ n file, dir.lookup n = some file → ∃ run, file = .intact run ∧ RunHolds pairs run

/-- One of the runs `ns` has the pair. -/
def Has (dir : RunDir) (ns : List ℕ) (pair : String × CommittedRec) : Prop :=
  ∃ n ∈ ns, ∃ run, dir.lookup n = some (.intact run) ∧ pair ∈ run

/-- Some run file has the pair. -/
def HasAny (dir : RunDir) (pair : String × CommittedRec) : Prop :=
  ∃ n run, dir.lookup n = some (.intact run) ∧ pair ∈ run

theorem Has.any {dir : RunDir} {ns : List ℕ} {pair : String × CommittedRec}
    (hhas : dir.Has ns pair) : dir.HasAny pair :=
  let ⟨n, _, run, hrun⟩ := hhas
  ⟨n, run, hrun⟩

theorem lookup_insert_ite (dir : RunDir) (n other : ℕ) (file : RunFile) :
    (dir.insert n file).lookup other = if other = n then some file else dir.lookup other := by
  split
  · next h => rw [h, AList.lookup_insert]
  · next h => rw [AList.lookup_insert_ne h]

theorem lookup_removeAll (dir : RunDir) (removes : ℕ → Bool) (ns : List ℕ) (other : ℕ) :
    (dir.removeAll removes ns).lookup other =
      if other ∈ ns ∧ removes other = true then none else dir.lookup other := by
  unfold removeAll
  induction ns generalizing dir with
  | nil => simp
  | cons n ns ih =>
      rw [List.foldl_cons, ih]
      by_cases hsame : other = n
      · subst hsame
        by_cases hremoves : removes other = true
        · simp [hremoves]
        · simp [hremoves]
      · by_cases hremoves : removes n = true
        · simp [hremoves, hsame, AList.lookup_erase_ne hsame]
        · simp [hremoves, hsame]

theorem Holds.insert {dir : RunDir} {pairs run : List (String × CommittedRec)}
    (hdir : dir.Holds pairs) (hrun : RunHolds pairs run) (n : ℕ) :
    Holds (dir.insert n (.intact run)) pairs := by
  intro other file hlookup
  rw [lookup_insert_ite] at hlookup
  split at hlookup
  · exact ⟨run, (Option.some.inj hlookup).symm, hrun⟩
  · exact hdir other file hlookup

theorem Holds.removeAll {dir : RunDir} {pairs : List (String × CommittedRec)}
    (hdir : dir.Holds pairs) (removes : ℕ → Bool) (ns : List ℕ) :
    (dir.removeAll removes ns).Holds pairs := by
  intro other file hlookup
  rw [lookup_removeAll] at hlookup
  split at hlookup
  · simp at hlookup
  · exact hdir other file hlookup

theorem Holds.mono {dir : RunDir} {pairs more : List (String × CommittedRec)}
    (hdir : dir.Holds pairs) (hsub : ∀ pair ∈ pairs, pair ∈ more) : dir.Holds more := by
  intro n file hlookup
  obtain ⟨run, hfile, hrun⟩ := hdir n file hlookup
  exact ⟨run, hfile, hrun.ascending, hrun.ne_nil, fun pair hpair => hsub pair (hrun.subset pair hpair)⟩

/-- A write to another file keeps what the runs `ns` have. -/
theorem Has.insert {dir : RunDir} {ns : List ℕ} {pair : String × CommittedRec}
    (hhas : dir.Has ns pair) {n : ℕ} (hn : n ∉ ns) (file : RunFile) :
    Has (dir.insert n file) ns pair := by
  obtain ⟨other, hother, run, hlookup, hpair⟩ := hhas
  have hne : other ≠ n := fun heq => hn (heq ▸ hother)
  exact ⟨other, hother, run, by rw [lookup_insert_ite, if_neg hne, hlookup], hpair⟩

end RunDir

theorem RunMeta.lt_nextRunN {infos : List RunMeta} {info : RunMeta} (hmem : info ∈ infos) :
    info.n < nextRunN infos := by
  unfold nextRunN
  have hn : info.n ∈ infos.map RunMeta.n := List.mem_map_of_mem hmem
  split
  · next max hmax => exact Nat.lt_succ_of_le ((List.max?_eq_some_iff.1 hmax).2 _ hn)
  · next hnone => simp [List.max?_eq_none_iff.1 hnone] at hn

theorem nextRunN_notMem (infos : List RunMeta) : nextRunN infos ∉ infos.map RunMeta.n := by
  intro hmem
  obtain ⟨info, hinfo, heq⟩ := List.mem_map.1 hmem
  have := RunMeta.lt_nextRunN hinfo
  omega

/-- Every key of a run lies in the range its metadata announces. -/
theorem RunHolds.inKeyRange {pairs run : List (String × CommittedRec)}
    (hrun : RunHolds pairs run) (n : ℕ) {pair : String × CommittedRec} (hmem : pair ∈ run) :
    ¬ (pair.1 < (RunMeta.of n run).keyRange.1 ∨ (RunMeta.of n run).keyRange.2 < pair.1) := by
  obtain ⟨head, hhead⟩ : ∃ head, run.head? = some head :=
    Option.isSome_iff_exists.1 (List.isSome_head?.2 hrun.ne_nil)
  obtain ⟨last, hlast⟩ : ∃ last, run.getLast? = some last :=
    Option.isSome_iff_exists.1 (List.getLast?_isSome.2 hrun.ne_nil)
  simp only [RunMeta.of, hhead, hlast, Option.map_some, Option.getD_some, not_or, not_lt]
  exact ⟨hrun.ascending.head_le hhead hmem, hrun.ascending.le_getLast hlast hmem⟩

/-- The metadata describes a run file of the directory that holds committed
pairs and is in the filter. -/
def RunMeta.Registered (rt : Runtime) (bloom : Bloom) (dir : RunDir)
    (pairs : List (String × CommittedRec)) (info : RunMeta) : Prop :=
  ∃ run, dir.lookup info.n = some (.intact run) ∧ info = RunMeta.of info.n run ∧
    RunHolds pairs run ∧ ∀ pair ∈ run, bloom.mightContain rt pair.1 = true

section Search

variable {bloom : Bloom} {dir : RunDir} {pairs : List (String × CommittedRec)}
  {infos : List RunMeta} {reads : ℕ → Bool}

/-- A search in registered runs finds committed pairs only, whichever of them it
can read. -/
theorem mem_of_searchRuns (hinfos : ∀ info ∈ infos, info.Registered rt bloom dir pairs)
    {key : String} {rec : CommittedRec}
    (hsearch : TieredIdem.searchRuns reads dir key infos = some rec) :
    ∃ info ∈ infos, reads info.n = true ∧ (key, rec) ∈ pairs ∧
      dir.Has [info.n] (key, rec) := by
  induction infos with
  | nil => simp [TieredIdem.searchRuns] at hsearch
  | cons info infos ih =>
      have ih := ih fun other hother => hinfos other (List.mem_cons_of_mem _ hother)
      obtain ⟨run, hlookup, -, hrun, -⟩ := hinfos info List.mem_cons_self
      have hlater : TieredIdem.searchRuns reads dir key infos = some rec →
          ∃ other ∈ info :: infos, reads other.n = true ∧ (key, rec) ∈ pairs ∧
            dir.Has [other.n] (key, rec) := fun hrest => by
        obtain ⟨other, hother, hfound⟩ := ih hrest
        exact ⟨other, List.mem_cons_of_mem _ hother, hfound⟩
      rw [TieredIdem.searchRuns] at hsearch
      split at hsearch
      · exact hlater hsearch
      · by_cases hreads : reads info.n = true
        · simp only [if_pos hreads, hlookup] at hsearch
          split at hsearch
          · next found hfound =>
              cases hsearch
              have hpair := (SortedPairs.search_eq_some hrun.ascending.nodup_keys).1 hfound
              exact ⟨info, List.mem_cons_self, hreads, hrun.subset _ hpair,
                info.n, List.mem_singleton_self _, run, hlookup, hpair⟩
          · exact hlater hsearch
        · rw [if_neg hreads] at hsearch
          exact hlater hsearch

/-- A search in registered runs finds every key that a run it can read has. -/
theorem searchRuns_ne_none (hinfos : ∀ info ∈ infos, info.Registered rt bloom dir pairs)
    {key : String} {rec : CommittedRec} {info : RunMeta} (hmem : info ∈ infos)
    (hreads : reads info.n = true) (hhas : dir.Has [info.n] (key, rec)) :
    TieredIdem.searchRuns reads dir key infos ≠ none := by
  induction infos with
  | nil => cases hmem
  | cons first infos ih =>
      have ih := ih fun other hother => hinfos other (List.mem_cons_of_mem _ hother)
      obtain ⟨run, hlookup, hinfo, hrun, -⟩ := hinfos first List.mem_cons_self
      rw [TieredIdem.searchRuns]
      rcases List.mem_cons.1 hmem with rfl | hlater
      · obtain ⟨n, hn, other, hother, hpair⟩ := hhas
        rw [List.mem_singleton.1 hn, hlookup] at hother
        cases hother
        rw [hinfo, if_neg (hrun.inKeyRange info.n hpair), ← hinfo, if_pos hreads, hlookup]
        simp [(SortedPairs.search_eq_some hrun.ascending.nodup_keys).2 hpair]
      · split
        · exact ih hlater
        · split
          · split
            · simp
            · exact ih hlater
          · exact ih hlater

end Search

/-! ## The hot map -/

/-- The hot map holds committed pairs, and its order lists its keys once. -/
structure TieredIdem.HotHolds (idem : TieredIdem) (pairs : List (String × CommittedRec)) :
    Prop where
  subset : ∀ key rec, idem.hot.lookup key = some rec → (key, rec) ∈ pairs
  order_nodup : idem.order.Nodup
  mem_order : ∀ key, key ∈ idem.order ↔ key ∈ idem.hot

namespace TieredIdem

variable {idem : TieredIdem} {pairs : List (String × CommittedRec)}

theorem hotHolds_withCap (cap : ℕ) (pairs : List (String × CommittedRec)) :
    (withCap cap).HotHolds pairs where
  subset key rec h := by simp [withCap] at h
  order_nodup := List.nodup_nil
  mem_order key := by simp [withCap, Finmap.notMem_empty]

theorem HotHolds.mono {more : List (String × CommittedRec)} (hhot : idem.HotHolds pairs)
    (hsub : ∀ pair ∈ pairs, pair ∈ more) : idem.HotHolds more where
  subset key rec h := hsub _ (hhot.subset key rec h)
  order_nodup := hhot.order_nodup
  mem_order := hhot.mem_order

theorem HotHolds.insert (hhot : idem.HotHolds pairs) {key : String} {rec : CommittedRec}
    (hmem : (key, rec) ∈ pairs) : (idem.insert key rec).HotHolds pairs where
  subset other found h := by
    simp only [TieredIdem.insert, HashMap.lookup_insert_ite] at h
    split at h
    · next hsame => cases h; rwa [hsame]
    · exact hhot.subset other found h
  order_nodup := by
    simp only [TieredIdem.insert]
    split
    · exact hhot.order_nodup
    · next hnew =>
        have hnotin : key ∉ idem.order := fun h => hnew ((hhot.mem_order key).1 h)
        rw [List.nodup_append]
        refine ⟨hhot.order_nodup, List.nodup_singleton key, ?_⟩
        rintro other hother _ hlast rfl
        exact hnotin (List.mem_singleton.1 hlast ▸ hother)
  mem_order other := by
    simp only [TieredIdem.insert, Finmap.mem_insert]
    split
    · next hold =>
        rw [hhot.mem_order]
        exact ⟨Or.inr, fun h => h.elim (fun heq => heq ▸ hold) id⟩
    · rw [List.mem_append, hhot.mem_order, List.mem_singleton, or_comm]

theorem hot_record_of_mem {key : String} (ev : WireEvent) (hmem : key ∈ idem.hot) :
    key ∈ (idem.record ev).hot := by
  unfold record
  split
  · simp [TieredIdem.insert, Finmap.mem_insert, hmem]
  · exact hmem

theorem hot_foldl_record_of_mem {key : String} (events : List WireEvent)
    (hmem : key ∈ idem.hot) : key ∈ (events.foldl record idem).hot := by
  induction events generalizing idem with
  | nil => exact hmem
  | cons ev events ih => exact ih (hot_record_of_mem ev hmem)

/-- The hot keys after recording events: those from before and the committed
ones. -/
theorem mem_hot_foldl_record_iff {events : List WireEvent} {key : String} :
    key ∈ (events.foldl record idem).hot ↔
      key ∈ idem.hot ∨ ∃ pair ∈ commitsOf events, pair.1 = key := by
  induction events generalizing idem with
  | nil => simp [commitsOf]
  | cons ev events ih =>
      rw [List.foldl_cons, ih, commitsOf_cons]
      cases hev : ev.committed with
      | none => simp [record, hev]
      | some committed =>
          simp only [record, hev, TieredIdem.insert, Finmap.mem_insert, Option.toList_some,
            List.singleton_append, List.mem_cons, exists_eq_or_imp, eq_comm (a := key), or_assoc]
          exact or_left_comm

theorem HotHolds.foldl_record (hhot : idem.HotHolds pairs) {events : List WireEvent}
    (hsub : ∀ pair ∈ commitsOf events, pair ∈ pairs) :
    (events.foldl record idem).HotHolds pairs := by
  induction events generalizing idem with
  | nil => exact hhot
  | cons ev events ih =>
      rw [commitsOf_cons] at hsub
      have hlater : ∀ pair ∈ commitsOf events, pair ∈ pairs := fun pair hpair =>
        hsub pair (List.mem_append_right _ hpair)
      rw [List.foldl_cons, record]
      split
      · next key committed hev =>
          exact ih (hhot.insert (hsub _ (by simp [hev]))) hlater
      · exact ih hhot hlater

@[simp]
theorem runs_foldl_record (idem : TieredIdem) (events : List WireEvent) :
    (events.foldl record idem).runs = idem.runs ∧
      (events.foldl record idem).bloom = idem.bloom ∧
      (events.foldl record idem).cap = idem.cap := by
  induction events generalizing idem with
  | nil => exact ⟨rfl, rfl, rfl⟩
  | cons ev events ih =>
      have hrecord : (idem.record ev).runs = idem.runs ∧
          (idem.record ev).bloom = idem.bloom ∧ (idem.record ev).cap = idem.cap := by
        unfold record
        split <;> exact ⟨rfl, rfl, rfl⟩
      have := ih (idem.record ev)
      rwa [hrecord.1, hrecord.2.1, hrecord.2.2] at this

/-! ## Draining -/

/-- What is drained comes from the front of the order, each key once, with the
record the hot map has. -/
theorem drain_general (n : ℕ) (order : List String) (hot : HashMap String CommittedRec) :
    (drain n order hot).2.1 = order.drop n ∧
      ((drain n order hot).1.map Prod.fst).Sublist (order.take n) ∧
      ((drain n order hot).1.map Prod.fst).Nodup ∧
      (∀ pair ∈ (drain n order hot).1, hot.lookup pair.1 = some pair.2) ∧
      ∀ key, (drain n order hot).2.2.lookup key =
        if key ∈ (drain n order hot).1.map Prod.fst then none else hot.lookup key := by
  induction n generalizing order hot with
  | zero => simp [drain]
  | succ n ih =>
      cases order with
      | nil => simp [drain]
      | cons key order =>
          rw [drain]
          cases hkey : hot.lookup key with
          | none =>
              obtain ⟨horder, hsub, hnodup, hpairs, hrest⟩ := ih order hot
              exact ⟨horder, hsub.cons key, hnodup, hpairs, hrest⟩
          | some rec =>
              obtain ⟨horder, hsub, hnodup, hpairs, hrest⟩ := ih order (hot.erase key)
              have hlookup : ∀ pair ∈ (drain n order (hot.erase key)).1,
                  pair.1 ≠ key ∧ hot.lookup pair.1 = some pair.2 := by
                intro pair hpair
                have hfound := hpairs pair hpair
                rw [HashMap.lookup_erase_ite] at hfound
                split at hfound
                · cases hfound
                · next hne => exact ⟨hne, hfound⟩
              refine ⟨horder, hsub.cons_cons key, List.nodup_cons.2 ⟨fun hmem => ?_, hnodup⟩,
                List.forall_mem_cons.2 ⟨hkey, fun pair hpair => (hlookup pair hpair).2⟩,
                fun other => ?_⟩
              · obtain ⟨pair, hpair, hsame⟩ := List.mem_map.1 hmem
                exact (hlookup pair hpair).1 hsame
              · have hcons : other ∈ ((key, rec) ::
                    (drain n order (hot.erase key)).1).map Prod.fst ↔
                    other = key ∨ other ∈ (drain n order (hot.erase key)).1.map Prod.fst :=
                  List.mem_cons
                dsimp only
                rw [hrest, HashMap.lookup_erase_ite, if_congr hcons rfl rfl]
                by_cases hsame : other = key
                · rw [if_pos hsame, if_pos (Or.inl hsame), ite_self]
                · rw [if_neg hsame]
                  exact if_congr (or_iff_right hsame).symm rfl rfl

/-- Where the front of the order lists hot keys, each once, it is drained. -/
theorem keys_drain {n : ℕ} {order : List String} {hot : HashMap String CommittedRec}
    (hnodup : (order.take n).Nodup) (hmem : ∀ key ∈ order.take n, key ∈ hot) :
    (drain n order hot).1.map Prod.fst = order.take n := by
  induction n generalizing order hot with
  | zero => simp [drain]
  | succ n ih =>
      cases order with
      | nil => simp [drain]
      | cons key order =>
          rw [List.take_succ_cons] at hnodup hmem ⊢
          obtain ⟨hnotin, hrest⟩ := List.nodup_cons.1 hnodup
          obtain ⟨rec, hrec⟩ := Finmap.mem_iff.1 (hmem key List.mem_cons_self)
          have hmem' : ∀ other ∈ order.take n, other ∈ hot.erase key := fun other hother =>
            Finmap.mem_erase.2 ⟨fun heq => hnotin (heq ▸ hother),
              hmem other (List.mem_cons_of_mem _ hother)⟩
          simp only [drain, hrec, List.map_cons, ih hrest hmem']

theorem drain_spec {n : ℕ} {order : List String} {hot : HashMap String CommittedRec}
    (hnodup : order.Nodup) (hmem : ∀ key ∈ order, key ∈ hot) :
    (drain n order hot).1.map Prod.fst = order.take n ∧
      (∀ pair ∈ (drain n order hot).1, hot.lookup pair.1 = some pair.2) ∧
      (drain n order hot).2.1 = order.drop n ∧
      ∀ key, (drain n order hot).2.2.lookup key =
        if key ∈ order.take n then none else hot.lookup key := by
  have hkeys : (drain n order hot).1.map Prod.fst = order.take n :=
    keys_drain (hnodup.sublist (List.take_sublist n order)) fun key hkey =>
      hmem key (List.mem_of_mem_take hkey)
  obtain ⟨horder, -, -, hpairs, hrest⟩ := drain_general n order hot
  rw [hkeys] at hrest
  exact ⟨hkeys, hpairs, horder, hrest⟩

/-- Putting pairs back restores the entries they came from. -/
theorem lookup_putBack {spilled : List (String × CommittedRec)}
    {hot hot' : HashMap String CommittedRec}
    (hpairs : ∀ pair ∈ spilled, hot.lookup pair.1 = some pair.2)
    (hrest : ∀ key, key ∉ spilled.map Prod.fst → hot'.lookup key = hot.lookup key) :
    putBack spilled hot' = hot := by
  unfold putBack
  induction spilled generalizing hot' with
  | nil => exact Finmap.ext_lookup fun key => hrest key (by simp)
  | cons pair spilled ih =>
      refine ih (fun other hother => hpairs other (List.mem_cons_of_mem _ hother)) ?_
      intro key hkey
      rw [HashMap.lookup_insert_ite]
      split
      · next hsame => rw [hsame, hpairs pair List.mem_cons_self]
      · next hdiff => exact hrest key (by simpa [hdiff] using hkey)

/-! ## The whole index -/

/-- The index holds exactly the committed pairs. -/
structure Indexes (rt : Runtime) (idem : TieredIdem) (dir : RunDir)
    (pairs : List (String × CommittedRec)) : Prop where
  hot_holds : idem.HotHolds pairs
  dir_holds : dir.Holds pairs
  registered : ∀ info ∈ idem.runs, info.Registered rt idem.bloom dir pairs
  covers : ∀ pair ∈ pairs, pair.1 ∈ idem.hot ∨ dir.Has (idem.runs.map RunMeta.n) pair

/-- A lookup finds the committed record of a key that is hot, or that is in a run
it can read. -/
theorem Indexes.get_eq_some_iff {dir : RunDir} (hindex : idem.Indexes rt dir pairs)
    (hnodup : (pairs.map Prod.fst).Nodup) {reads : ℕ → Bool} {key : String} {rec : CommittedRec} :
    idem.get rt reads dir key = some rec ↔ (key, rec) ∈ pairs ∧ (key ∈ idem.hot ∨
      ∃ info ∈ idem.runs, reads info.n = true ∧ dir.Has [info.n] (key, rec)) := by
  have hunique : ∀ {found : CommittedRec}, (key, found) ∈ pairs → (key, rec) ∈ pairs →
      found = rec := fun hfound hrec => by
    have hsame := (SortedPairs.search_eq_some hnodup).2 hfound
    rw [(SortedPairs.search_eq_some hnodup).2 hrec] at hsame
    exact (Option.some.inj hsame).symm
  unfold TieredIdem.get getHot
  cases hhot : idem.hot.lookup key with
  | some found =>
      have hmem := hindex.hot_holds.subset key found hhot
      constructor
      · intro heq
        cases heq
        exact ⟨hmem, Or.inl (Finmap.mem_of_lookup_eq_some hhot)⟩
      · rintro ⟨hrec, -⟩
        rw [hunique hmem hrec]
  | none =>
      have hcold : key ∉ idem.hot := Finmap.lookup_eq_none.1 hhot
      have hruns : ∀ info ∈ idem.runs.reverse, info.Registered rt idem.bloom dir pairs :=
        fun info hinfo => hindex.registered info (List.mem_reverse.1 hinfo)
      dsimp only
      constructor
      · intro hfound
        split at hfound
        · obtain ⟨info, hinfo, hreads, hmem, hhas⟩ := mem_of_searchRuns hruns hfound
          exact ⟨hmem, Or.inr ⟨info, List.mem_reverse.1 hinfo, hreads, hhas⟩⟩
        · cases hfound
      · rintro ⟨hmem, hwhere⟩
        obtain ⟨info, hinfo, hreads, hhas⟩ := hwhere.resolve_left hcold
        have hbloom : idem.bloomMightContain rt key = true := by
          obtain ⟨n, hn, run, hlookup, hpair⟩ := hhas
          obtain ⟨other, hother, -, -, hfilter⟩ := hindex.registered info hinfo
          rw [List.mem_singleton.1 hn, hother] at hlookup
          cases hlookup
          exact hfilter (key, rec) hpair
        rw [if_pos hbloom]
        obtain ⟨found, hfound⟩ := Option.ne_none_iff_exists'.1
          (searchRuns_ne_none hruns (List.mem_reverse.2 hinfo) hreads hhas)
        obtain ⟨-, -, -, hsame, -⟩ := mem_of_searchRuns hruns hfound
        rw [lookupRuns, hfound, hunique hsame hmem]

/-- A lookup in the index is a search in the committed pairs. -/
theorem Indexes.get_eq {dir : RunDir} (hindex : idem.Indexes rt dir pairs)
    (hnodup : (pairs.map Prod.fst).Nodup) (key : String) :
    idem.get rt allReadable dir key = SortedPairs.search pairs key := by
  cases hsearch : SortedPairs.search pairs key with
  | none =>
      rw [Option.eq_none_iff_forall_ne_some]
      intro rec hrec
      have hmem := ((hindex.get_eq_some_iff hnodup).1 hrec).1
      exact SortedPairs.search_eq_none.1 hsearch _ hmem rfl
  | some rec =>
      have hmem : (key, rec) ∈ pairs := (SortedPairs.search_eq_some hnodup).1 hsearch
      refine (hindex.get_eq_some_iff hnodup).2 ⟨hmem, (hindex.covers _ hmem).imp_right ?_⟩
      rintro ⟨n, hn, hrun⟩
      obtain ⟨info, hinfo, rfl⟩ := List.mem_map.1 hn
      exact ⟨info, hinfo, rfl, info.n, List.mem_singleton_self _, hrun⟩

/-- The committed keys of further events recorded in the index. -/
theorem Indexes.foldl_record {dir : RunDir} (hindex : idem.Indexes rt dir pairs)
    (events : List WireEvent) :
    (events.foldl record idem).Indexes rt dir (pairs ++ commitsOf events) := by
  have hsub : ∀ pair ∈ pairs, pair ∈ pairs ++ commitsOf events :=
    fun pair hpair => List.mem_append_left _ hpair
  obtain ⟨hruns, hbloom, -⟩ := runs_foldl_record idem events
  constructor
  · exact (hindex.hot_holds.mono hsub).foldl_record
      fun pair hpair => List.mem_append_right _ hpair
  · exact hindex.dir_holds.mono hsub
  · intro info hinfo
    rw [hruns] at hinfo
    rw [hbloom]
    obtain ⟨run, hlookup, hmeta, hrun, hfilter⟩ := hindex.registered info hinfo
    exact ⟨run, hlookup, hmeta,
      ⟨hrun.ascending, hrun.ne_nil, fun pair hpair => hsub pair (hrun.subset pair hpair)⟩, hfilter⟩
  · intro pair hpair
    rw [hruns, mem_hot_foldl_record_iff]
    rcases List.mem_append.1 hpair with hold | hnew
    · exact (hindex.covers pair hold).imp_left Or.inl
    · exact Or.inl (Or.inr ⟨pair, hnew, rfl⟩)

/-! ## Merging -/

/-- The numbers of the registered runs. -/
def runNs (idem : TieredIdem) : List ℕ :=
  idem.runs.map RunMeta.n

/-- The index stays complete, and what the registered runs have stays in
registered runs. -/
structure Maintains (rt : Runtime) (pairs : List (String × CommittedRec))
    (before after : TieredIdem × RunDir) : Prop where
  indexes : after.1.Indexes rt after.2 pairs
  keeps : ∀ pair, before.2.Has before.1.runNs pair → after.2.Has after.1.runNs pair
  cap_eq : after.1.cap = before.1.cap

variable {dir : RunDir}

theorem Maintains.refl (hindex : idem.Indexes rt dir pairs) :
    Maintains rt pairs (idem, dir) (idem, dir) :=
  ⟨hindex, fun _ hhas => hhas, rfl⟩

theorem Maintains.trans {first second third : TieredIdem × RunDir}
    (hfirst : Maintains rt pairs first second) (hsecond : Maintains rt pairs second third) :
    Maintains rt pairs first third :=
  ⟨hsecond.indexes, fun pair hhas => hsecond.keeps pair (hfirst.keeps pair hhas),
    hsecond.cap_eq.trans hfirst.cap_eq⟩

/-- A run file that is not registered may hold committed pairs. -/
theorem Maintains.insertFile (hindex : idem.Indexes rt dir pairs)
    {run : List (String × CommittedRec)} (hrun : RunHolds pairs run) {n : ℕ}
    (hn : n ∉ idem.runNs) :
    Maintains rt pairs (idem, dir) (idem, dir.insert n (.intact run)) where
  indexes :=
    { hot_holds := hindex.hot_holds
      dir_holds := hindex.dir_holds.insert hrun n
      registered := by
        intro info hinfo
        obtain ⟨other, hlookup, hmeta, hother, hfilter⟩ := hindex.registered info hinfo
        have hne : info.n ≠ n := fun heq => hn (heq ▸ List.mem_map_of_mem hinfo)
        exact ⟨other, by rw [RunDir.lookup_insert_ite, if_neg hne, hlookup], hmeta, hother, hfilter⟩
      covers := fun pair hpair => (hindex.covers pair hpair).imp_right fun hhas => hhas.insert hn _ }
  keeps _ hhas := hhas.insert hn _
  cap_eq := rfl

theorem readRuns_spec {bloom : Bloom} {infos : List RunMeta}
    (hinfos : ∀ info ∈ infos, info.Registered rt bloom dir pairs) :
    ∃ read, readRuns dir infos = some read ∧
      ∀ pair, pair ∈ read ↔ dir.Has (infos.map RunMeta.n) pair := by
  induction infos with
  | nil => exact ⟨[], rfl, fun pair => by simp [RunDir.Has]⟩
  | cons info infos ih =>
      obtain ⟨later, hlater, hmem⟩ :=
        ih fun other hother => hinfos other (List.mem_cons_of_mem _ hother)
      obtain ⟨run, hlookup, -⟩ := hinfos info List.mem_cons_self
      refine ⟨run ++ later, by simp [readRuns, hlookup, hlater], fun pair => ?_⟩
      simp only [List.mem_append, hmem, RunDir.Has, List.map_cons, List.mem_cons, exists_eq_or_imp,
        hlookup, Option.some.injEq, RunFile.intact.injEq, exists_eq_left']

/-- A merged run has exactly what the runs had. -/
theorem mem_merged {read : List (String × CommittedRec)}
    (hnodup : (pairs.map Prod.fst).Nodup) (hsub : ∀ pair ∈ read, pair ∈ pairs)
    (pair : String × CommittedRec) :
    pair ∈ SortedPairs.dedup (SortedPairs.sort read) ↔ pair ∈ read := by
  constructor
  · exact fun hmem => SortedPairs.mem_sort.1 (SortedPairs.mem_of_mem_dedup hmem)
  · intro hmem
    obtain ⟨kept, hkept, hkey⟩ := SortedPairs.exists_mem_dedup (SortedPairs.mem_sort.2 hmem)
    have hkeptMem := hsub kept (SortedPairs.mem_sort.1 (SortedPairs.mem_of_mem_dedup hkept))
    have hsame : kept = pair := List.inj_on_of_nodup_map hnodup hkeptMem (hsub pair hmem) hkey
    rwa [← hsame]

theorem Indexes.mergeRuns (hindex : idem.Indexes rt dir pairs)
    (hnodup : (pairs.map Prod.fst).Nodup) (io : SpillIo) :
    Maintains rt pairs (idem, dir) (idem.mergeRuns rt io dir) := by
  unfold TieredIdem.mergeRuns
  split
  · exact .refl hindex
  next hmany =>
  obtain ⟨read, hread, hmem⟩ := readRuns_spec hindex.registered
  rw [hread]
  dsimp only
  have hsub : ∀ pair ∈ read, pair ∈ pairs := by
    intro pair hpair
    obtain ⟨n, -, run, hlookup, hin⟩ := (hmem pair).1 hpair
    obtain ⟨_, heq, hrun⟩ := hindex.dir_holds n _ hlookup
    cases heq
    exact hrun.subset pair hin
  have hmerged := mem_merged hnodup hsub
  set merged := SortedPairs.dedup (SortedPairs.sort read) with hdef
  have hne : merged ≠ [] := by
    obtain ⟨info, hinfo⟩ := List.exists_mem_of_ne_nil idem.runs (by rintro hnil; simp [hnil] at hmany)
    obtain ⟨run, hlookup, -, hrun, -⟩ := hindex.registered info hinfo
    obtain ⟨pair, hpair⟩ := List.exists_mem_of_ne_nil run hrun.ne_nil
    exact List.ne_nil_of_mem ((hmerged pair).2 ((hmem pair).2
      ⟨info.n, List.mem_map_of_mem hinfo, run, hlookup, hpair⟩))
  have hholds : RunHolds pairs merged :=
    ⟨SortedPairs.ascending_dedup_sort read, hne,
      fun pair hpair => hsub pair ((hmerged pair).1 hpair)⟩
  have hfresh : nextRunN idem.runs ∉ idem.runNs := nextRunN_notMem idem.runs
  split
  · split
    · exact .refl hindex
    · exact .insertFile hindex hholds hfresh
    · -- the merged run takes the place of all registered ones
      have hlookup : (RunDir.removeAll (dir.insert (nextRunN idem.runs) (.intact merged))
          io.removes (idem.runs.map RunMeta.n)).lookup (nextRunN idem.runs) =
            some (.intact merged) := by
        rw [RunDir.lookup_removeAll, if_neg fun h => hfresh h.1, AList.lookup_insert]
      have hhas : ∀ pair, dir.Has idem.runNs pair →
          (RunDir.removeAll (dir.insert (nextRunN idem.runs) (.intact merged)) io.removes
            (idem.runs.map RunMeta.n)).Has [nextRunN idem.runs] pair := fun pair hold =>
        ⟨_, List.mem_singleton_self _, merged, hlookup, (hmerged pair).2 ((hmem pair).2 hold)⟩
      have hhot := hindex.hot_holds
      refine ⟨⟨⟨hhot.subset, hhot.order_nodup, hhot.mem_order⟩, ?_, ?_, ?_⟩, hhas, rfl⟩
      · exact (hindex.dir_holds.insert hholds _).removeAll _ _
      · intro info hinfo
        rw [List.mem_singleton.1 hinfo]
        exact ⟨merged, hlookup, rfl, hholds, fun pair hpair =>
          Bloom.mightContain_insertAll _ hpair⟩
      · exact fun pair hpair => (hindex.covers pair hpair).imp_right (hhas pair)
  · exact .refl hindex

/-! ## Flushing -/

/-- Drained pairs that are put back leave the hot map as it was, and its order
up to a permutation. -/
theorem HotHolds.putBack_drain (hhot : idem.HotHolds pairs) {n : ℕ}
    {spilled : List (String × CommittedRec)} {keys : List String}
    (hkeys : keys.Perm (idem.order.take n))
    (hspilled : spilled.Perm (drain n idem.order idem.hot).1) :
    putBack spilled (drain n idem.order idem.hot).2.2 = idem.hot ∧
      (keys ++ (drain n idem.order idem.hot).2.1).Perm idem.order := by
  obtain ⟨hdrained, hpairs, horder, hrest⟩ :=
    drain_spec (n := n) hhot.order_nodup fun key hkey => (hhot.mem_order key).1 hkey
  constructor
  · refine lookup_putBack (fun pair hpair => hpairs pair (hspilled.mem_iff.1 hpair)) ?_
    intro key hkey
    have hnotin : key ∉ idem.order.take n := by
      rw [← hdrained]
      exact fun h => hkey ((hspilled.map Prod.fst).mem_iff.2 h)
    rw [hrest, if_neg hnotin]
  · rw [horder]
    simpa using hkeys.append_right (idem.order.drop n)

/-- The index does not depend on the order of the hot keys. -/
theorem Maintains.reorder (hindex : idem.Indexes rt dir pairs) {order : List String}
    (hperm : order.Perm idem.order) :
    Maintains rt pairs (idem, dir) ({ idem with order }, dir) where
  indexes :=
    { hot_holds :=
        ⟨hindex.hot_holds.subset, hperm.nodup_iff.2 hindex.hot_holds.order_nodup,
          fun key => hperm.mem_iff.trans (hindex.hot_holds.mem_order key)⟩
      dir_holds := hindex.dir_holds
      registered := hindex.registered
      covers := hindex.covers }
  keeps _ hhas := hhas
  cap_eq := rfl

/-- A spilled run is registered and its keys leave the hot map. -/
theorem Indexes.spill (hindex : idem.Indexes rt dir pairs)
    (hnodup : (pairs.map Prod.fst).Nodup) {n : ℕ} {run : List (String × CommittedRec)}
    (hrun : RunHolds pairs run) (hperm : run.Perm (drain n idem.order idem.hot).1)
    {fresh : ℕ} (hfresh : fresh ∉ idem.runNs) :
    Maintains rt pairs (idem, dir)
      ({ idem with
          order := (drain n idem.order idem.hot).2.1
          hot := (drain n idem.order idem.hot).2.2
          runs := idem.runs ++ [RunMeta.of fresh run]
          bloom := idem.bloom.insertAll rt run }, dir.insert fresh (.intact run)) := by
  obtain ⟨hdrained, hpairs, horder, hrest⟩ :=
    drain_spec (n := n) hindex.hot_holds.order_nodup
      fun key hkey => (hindex.hot_holds.mem_order key).1 hkey
  have hwritten := Maintains.insertFile hindex hrun hfresh
  have hlookup : (dir.insert fresh (.intact run)).lookup fresh = some (.intact run) :=
    AList.lookup_insert dir
  have hcold : ∀ key rec, (drain n idem.order idem.hot).2.2.lookup key = some rec →
      key ∉ idem.order.take n ∧ idem.hot.lookup key = some rec := by
    intro key rec hkey
    rw [hrest] at hkey
    split at hkey
    · simp at hkey
    · next hnotin => exact ⟨hnotin, hkey⟩
  have hsplit : idem.order.take n ++ idem.order.drop n = idem.order :=
    List.take_append_drop n idem.order
  refine ⟨⟨⟨?_, ?_, ?_⟩, hwritten.indexes.dir_holds, ?_, ?_⟩, ?_, rfl⟩
  · exact fun key rec hkey => hindex.hot_holds.subset key rec (hcold key rec hkey).2
  · rw [horder]
    exact hindex.hot_holds.order_nodup.sublist (List.drop_sublist n _)
  · intro key
    have hall := hindex.hot_holds.mem_order key
    rw [← hsplit, List.mem_append] at hall
    have hparts : (idem.order.take n ++ idem.order.drop n).Nodup := by
      rw [hsplit]
      exact hindex.hot_holds.order_nodup
    have hdisjoint : key ∈ idem.order.take n → key ∉ idem.order.drop n := fun htake hdrop =>
      (List.nodup_append.1 hparts).2.2 key htake key hdrop rfl
    rw [horder, ← Finmap.lookup_isSome, hrest]
    by_cases htake : key ∈ idem.order.take n
    · simp [htake, hdisjoint htake]
    · rw [if_neg htake, Finmap.lookup_isSome, ← hall]
      simp [htake]
  · intro info hinfo
    rcases List.mem_append.1 hinfo with hold | hnew
    · obtain ⟨other, hother, hmeta, hholds, hfilter⟩ := hwritten.indexes.registered info hold
      exact ⟨other, hother, hmeta, hholds, fun pair hpair =>
        Bloom.mightContain_insertAll_of _ run (hfilter pair hpair)⟩
    · rw [List.mem_singleton.1 hnew]
      exact ⟨run, hlookup, rfl, hrun, fun pair hpair => Bloom.mightContain_insertAll _ hpair⟩
  · intro pair hpair
    rcases hwritten.indexes.covers pair hpair with hhot | ⟨other, hother, hhas⟩
    · by_cases htake : pair.1 ∈ idem.order.take n
      · -- the drained pair under this key is the committed one
        right
        rw [← hdrained] at htake
        obtain ⟨spilled, hspilled, hkey⟩ := List.mem_map.1 htake
        have hmem := hrun.subset spilled (hperm.mem_iff.2 hspilled)
        have hsame : spilled = pair := List.inj_on_of_nodup_map hnodup hmem hpair hkey
        exact ⟨fresh, by simp [RunMeta.of], run, hlookup, hperm.mem_iff.2 (hsame ▸ hspilled)⟩
      · left
        rw [← Finmap.lookup_isSome, hrest, if_neg htake]
        exact Finmap.lookup_isSome.2 hhot
    · exact Or.inr ⟨other, by simp [hother], hhas⟩
  · rintro pair hhas
    obtain ⟨other, hother, hrest⟩ := hwritten.keeps pair hhas
    exact ⟨other, by simpa [runNs] using Or.inl (by simpa [runNs] using hother), hrest⟩

theorem Indexes.flushSpill (hindex : idem.Indexes rt dir pairs)
    (hnodup : (pairs.map Prod.fst).Nodup) (io : SpillIo) :
    Maintains rt pairs (idem, dir) (idem.flushSpill rt io dir) := by
  set n := idem.hot.keys.card / 2 with hn
  obtain ⟨hdrained, hpairs, -, -⟩ := drain_spec (n := n) hindex.hot_holds.order_nodup
    fun key hkey => (hindex.hot_holds.mem_order key).1 hkey
  have hperm := SortedPairs.sort_perm (drain n idem.order idem.hot).1
  have hkeys := hdrained ▸ hperm.map Prod.fst
  have hsub : ∀ pair ∈ SortedPairs.sort (drain n idem.order idem.hot).1, pair ∈ pairs :=
    fun pair hpair => hindex.hot_holds.subset _ _ (hpairs pair (hperm.mem_iff.1 hpair))
  have hascending : SortedPairs.Ascending (SortedPairs.sort (drain n idem.order idem.hot).1) := by
    refine SortedPairs.ascending_sort ?_
    rw [hdrained]
    exact hindex.hot_holds.order_nodup.sublist (List.take_sublist n _)
  have hfresh : nextRunN idem.runs ∉ idem.runNs := nextRunN_notMem idem.runs
  unfold TieredIdem.flushSpill
  simp only [← hn]
  split
  · exact .refl hindex
  next hsome =>
  split
  · -- half of a nonempty hot map is in the order, so something was drained
    next hempty =>
    have htake : idem.order.take n = [] := by rw [← hdrained, hempty, List.map_nil]
    obtain ⟨key, hkey⟩ : idem.hot.keys.Nonempty := Finset.card_pos.1 (by omega)
    have hmem := (hindex.hot_holds.mem_order key).2 (Finmap.mem_keys.1 hkey)
    rcases List.take_eq_nil_iff.1 htake with hzero | hnil
    · exact absurd hzero hsome
    · rw [hnil] at hmem
      simp at hmem
  next hsome =>
  have hholds : RunHolds pairs (SortedPairs.sort (drain n idem.order idem.hot).1) :=
    ⟨hascending, fun hnil => hsome (SortedPairs.sort_eq_nil.1 hnil), hsub⟩
  split
  · obtain ⟨hback, horder⟩ := hindex.hot_holds.putBack_drain hkeys
      ((List.reverse_perm _).trans hperm)
    rw [hback]
    split
    · exact .reorder hindex horder
    · exact (Maintains.reorder hindex horder).trans
        (.insertFile (Maintains.reorder hindex horder).indexes hholds hfresh)
    · have hspill := hindex.spill hnodup hholds hperm hfresh
      split
      · exact hspill.trans (hspill.indexes.mergeRuns hnodup io)
      · exact hspill
  · obtain ⟨hback, horder⟩ := hindex.hot_holds.putBack_drain
      ((List.reverse_perm _).trans hkeys) hperm
    rw [hback]
    exact .reorder hindex horder

/-! ## Attaching -/

/-- Intact nonempty run files are all registered. -/
theorem validateRuns_spec (hdir : dir.Holds pairs) {ns : List ℕ}
    (hns : ∀ n ∈ ns, n ∈ dir) :
    ∃ infos, validateRuns dir ns = some infos ∧ infos.map RunMeta.n = ns ∧
      ∀ info ∈ infos, ∃ run, dir.lookup info.n = some (.intact run) ∧
        info = RunMeta.of info.n run ∧ RunHolds pairs run := by
  induction ns with
  | nil => exact ⟨[], rfl, rfl, by simp⟩
  | cons n ns ih =>
      obtain ⟨infos, hvalid, hnumbers, hinfos⟩ :=
        ih fun other hother => hns other (List.mem_cons_of_mem _ hother)
      obtain ⟨file, hfile⟩ := Option.isSome_iff_exists.1
        (AList.lookup_isSome.2 (hns n List.mem_cons_self))
      obtain ⟨run, rfl, hrun⟩ := hdir n file hfile
      refine ⟨RunMeta.of n run :: infos, ?_, by simp [hnumbers, RunMeta.of], ?_⟩
      · simp [validateRuns, hfile, hvalid, hrun.ne_nil]
      · intro info hinfo
        rcases List.mem_cons.1 hinfo with rfl | hrest
        · exact ⟨run, hfile, rfl, hrun⟩
        · exact hinfos info hrest

theorem mem_runPairs {infos : List RunMeta} {info : RunMeta} (hinfo : info ∈ infos)
    {run : List (String × CommittedRec)} (hlookup : dir.lookup info.n = some (.intact run))
    {pair : String × CommittedRec} (hpair : pair ∈ run) : pair ∈ runPairs dir infos :=
  List.mem_flatMap.2 ⟨info, hinfo, by simpa [hlookup] using hpair⟩

variable (rt) in
/-- Attaching a directory of intact run files registers all of them; the
directory and the hot map stay as they are. -/
theorem attachDir_of_holds (hdir : dir.Holds pairs) (io : SpillIo)
    {rebuild : List (String × CommittedRec)} (hrebuild : ∀ pair ∈ rebuild, pair.1 ∈ idem.hot) :
    ∃ infos, idem.attachDir rt io dir rebuild =
        ({ idem with
            runs := infos
            bloom := (Bloom.new idem.cap).insertAll rt (runPairs dir infos) }, dir) ∧
      (∀ n, n ∈ infos.map RunMeta.n ↔ n ∈ dir) ∧
      ∀ info ∈ infos, ∃ run, dir.lookup info.n = some (.intact run) ∧
        info = RunMeta.of info.n run ∧ RunHolds pairs run := by
  have hmem : ∀ n, n ∈ dir.keys.insertionSort (· ≤ ·) ↔ n ∈ dir := fun n => by
    rw [List.mem_insertionSort, AList.mem_keys]
  obtain ⟨infos, hvalid, hnumbers, hinfos⟩ :=
    validateRuns_spec hdir fun n hn => (hmem n).1 hn
  have hnone : rebuild.filter (fun pair => pair.1 ∉ idem.hot) = [] :=
    List.filter_eq_nil_iff.2 fun pair hpair => by simp [hrebuild pair hpair]
  refine ⟨infos, ?_, fun n => by rw [hnumbers, hmem], hinfos⟩
  unfold attachDir
  simp only [hvalid]
  by_cases hempty : dir.keys.insertionSort (· ≤ ·) = []
  · have hinfosNil : infos = [] := by simpa [hempty] using hnumbers
    simp only [hempty, if_true, rebuildRuns, hnone, hinfosNil]
    rfl
  · rw [if_neg hempty]

variable (rt) in
theorem Indexes.of_attachDir (hhot : idem.HotHolds pairs) (hdir : dir.Holds pairs)
    (io : SpillIo) {rebuild : List (String × CommittedRec)}
    (hrebuild : ∀ pair ∈ rebuild, pair.1 ∈ idem.hot)
    (hcovers : ∀ pair ∈ pairs, pair.1 ∈ idem.hot ∨ dir.HasAny pair) :
    (idem.attachDir rt io dir rebuild).1.Indexes rt (idem.attachDir rt io dir rebuild).2 pairs ∧
      (idem.attachDir rt io dir rebuild).2 = dir ∧
      ∀ pair, dir.HasAny pair → dir.Has (idem.attachDir rt io dir rebuild).1.runNs pair := by
  obtain ⟨infos, hattach, hnumbers, hinfos⟩ := attachDir_of_holds rt hdir io hrebuild
  rw [hattach]
  have hany : ∀ pair, dir.HasAny pair → dir.Has (infos.map RunMeta.n) pair := by
    rintro pair ⟨n, run, hlookup, hpair⟩
    exact ⟨n, (hnumbers n).2 (AList.lookup_isSome.1 (by simp [hlookup])), run, hlookup, hpair⟩
  refine ⟨⟨⟨hhot.subset, hhot.order_nodup, hhot.mem_order⟩, hdir, ?_, ?_⟩, rfl, hany⟩
  · intro info hinfo
    obtain ⟨run, hlookup, hmeta, hrun⟩ := hinfos info hinfo
    exact ⟨run, hlookup, hmeta, hrun, fun pair hpair =>
      Bloom.mightContain_insertAll _ (mem_runPairs hinfo hlookup hpair)⟩
  · exact fun pair hpair => (hcovers pair hpair).imp_right (hany pair)

end TieredIdem

end Talea.Log
