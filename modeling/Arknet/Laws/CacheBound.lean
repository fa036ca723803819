import Arknet.Lib.Runs
import Arknet.Lib.PrefixScan
import Arknet.ModelManager.Cache

/-!
The cache over all interleavings of its calls. Between its file step and its index step a call is the one
that will account for its digest; where the last of these finds the disk in the state it records, and an
insert finds its room still free, index and disk agree below the cap whenever the calls have ended.
-/

namespace Arknet.Laws

open Store Runs Arknet.Chain Arknet.ModelManager Arknet.ModelManager.Cache

/-! ## The law -/

/-- The index as a column of sizes. -/
def indexedSizes (g : Shared) : Column Digest Nat := g.index.image id strictMono_id Entry.sizeBytes

def CacheStep (cfg : Config) (s : Cache.State) (l : Label) (s' : Cache.State) : Prop := s.next cfg l = some s'

/-- The index lists exactly the files on disk with their sizes, and their total is within the cap. -/
structure InSync (cfg : Config) (s : Cache.State) : Prop where
  listed : indexedSizes s.shared = s.shared.disk
  tracked : s.shared.totalBytes = s.shared.bytesOnDisk
  bounded : s.shared.totalBytes ≤ cfg.maxBytes.val

/-! ## The condition -/

/-- The digest whose file a call has changed, or found missing, and whose index entry it will set. -/
def owes : Cache.Stage → Option Digest
  | .getPrune digest => some digest
  | .gcForget _ _ _ victim => some victim
  | .insertUnlink digest _ _ => some digest
  | .insertIndex digest _ => some digest
  | .evictPartial digest => some digest
  | .evictIndex digest => some digest
  | _ => none

def IndexAgrees (g : Shared) (digest : Digest) : Prop :=
  (g.index.get digest).map Entry.sizeBytes = g.disk.get digest

/-- What an operation must find. An index change finds the file it records, or another call that owes the
digest; so does a call that ends without the index change it owes; an insert finds its room still free. -/
def CallMeets (cfg : Config) (other : Digest → Prop) (g : Shared) : Cache.Stage → Event → Prop
  | .getPrune digest, .step => g.disk.get digest = none ∨ other digest
  | .gcForget _ _ _ victim, .step => g.disk.get victim = none ∨ other victim
  | .evictIndex digest, .step => g.disk.get digest = none ∨ other digest
  | .insertIndex digest size, .now _ => (g.disk.get digest = some size ∨ other digest) ∧
      (g.index.erase digest).total (fun _ e => e.sizeBytes) + size ≤ cfg.maxBytes.val
  | .insertCopy digest _ _, .broken bytes =>
      (g.index.get digest).map Entry.sizeBytes = some bytes ∨ other digest
  | .insertUnlink digest srcPath _, .step => g.staged srcPath = none → IndexAgrees g digest ∨ other digest
  | .insertUnlink digest _ _, .ioError => IndexAgrees g digest ∨ other digest
  | stage, .cancel => ∀ digest, owes stage = some digest → IndexAgrees g digest ∨ other digest
  | _, _ => True

/-- Another call owes the digest. -/
def OwedElsewhere (s : Cache.State) (id : Nat) (digest : Digest) : Prop :=
  ∃ other, other ≠ id ∧ owes (s.calls other) = some digest

def StepMeets (cfg : Config) (s : Cache.State) : Label → Prop
  | .call id event => CallMeets cfg (OwedElsewhere s id) s.shared (s.calls id) event
  | .staged _ _ => True

/-! ## One operation -/

section

variable {cfg : Config} {other : Digest → Prop} {g g' : Shared} {stage stage' : Cache.Stage} {event : Event}

/-- An operation by what it changes: at most a time, one file or one entry. -/
inductive CacheEffect (cfg : Config) (other : Digest → Prop) (g : Shared) (stage : Cache.Stage) (g' : Shared)
    (stage' : Cache.Stage) : Prop where
  | quiet (hindex : g'.index = g.index) (hdisk : g'.disk = g.disk)
      (howes : ∀ d, owes stage = some d → owes stage' = some d ∨ IndexAgrees g d ∨ other d)
  | touched {digest : Digest} {entry : Entry} {time : Nat} (hentry : g.index.get digest = some entry)
      (hindex : g'.index = g.index.insert digest { entry with lastUsed := time })
      (hdisk : g'.disk = g.disk) (howes : owes stage = none)
  | file {digest : Digest} {o : Option Nat} (hindex : g'.index = g.index)
      (hdisk : g'.disk = g.disk.write digest o) (howes : owes stage = none)
      (hleaves : owes stage' = some digest ∨ (g.index.get digest).map Entry.sizeBytes = o ∨ other digest)
  | entry {digest : Digest} {o : Option Entry} (hindex : g'.index = g.index.write digest o)
      (hdisk : g'.disk = g.disk) (howes : owes stage = some digest)
      (hfound : g.disk.get digest = o.map Entry.sizeBytes ∨ other digest)
      (hroom : ∀ e, o = some e →
        (g.index.erase digest).total (fun _ e => e.sizeBytes) + e.sizeBytes ≤ cfg.maxBytes.val)

/-- Nothing changes and nothing was owed. -/
theorem CacheEffect.same (howes : owes stage = none) : CacheEffect cfg other g stage g stage' :=
  .quiet rfl rfl (fun d h => by rw [howes] at h; cases h)

theorem CacheEffect.removed {digest : Digest} (howes : owes stage = some digest)
    (hfound : g.disk.get digest = none ∨ other digest) :
    CacheEffect cfg other g stage { g with index := g.index.erase digest } stage' :=
  .entry (o := none) rfl rfl howes hfound (fun e h => by cases h)

theorem getStep_cacheEffect (h : getStep g stage event = some (g', stage'))
    (hm : CallMeets cfg other g stage event) : CacheEffect cfg other g stage g' stage' := by
  unfold getStep at h
  split at h
  · split at h
    · cases h
      exact .same rfl
    · rename_i entry hentry
      cases h
      exact .touched hentry rfl rfl rfl
  · cases h
    exact .same rfl
  · cases h
    exact .same rfl
  · cases h
    exact .removed rfl hm
  · cases h

theorem gcForStep_cacheEffect (h : gcForStep cfg g stage event = some (g', stage'))
    (hm : CallMeets cfg other g stage event) : CacheEffect cfg other g stage g' stage' := by
  unfold gcForStep at h
  split at h
  · cases h
    exact .same rfl
  · cases h
    exact .same rfl
  · split at h <;> cases h
    exact .same rfl
  · split at h <;> cases h
    exact .same rfl
  · cases h
    exact .file (o := none) rfl rfl rfl (.inl rfl)
  · cases h
    exact .same rfl
  · cases h
    exact .removed rfl hm
  · cases h

theorem insertStep_cacheEffect (h : insertStep g stage event = some (g', stage'))
    (hm : CallMeets cfg other g stage event) : CacheEffect cfg other g stage g' stage' := by
  unfold insertStep at h
  split at h
  · split at h <;> cases h <;> exact .same rfl
  · cases h
    exact .same rfl
  · cases h
    exact .same rfl
  · cases h
    exact .same rfl
  · split at h
    · rename_i bytes hbytes
      cases h
      exact .file (o := some bytes) rfl rfl rfl (.inl rfl)
    · cases h
      exact .same rfl
  · cases h
    exact .same rfl
  · cases h
    exact .same rfl
  · split at h
    · rename_i bytes hbytes
      cases h
      exact .file (o := some bytes) rfl rfl rfl (.inl rfl)
    · cases h
      exact .same rfl
  · rename_i digest srcPath size bytes
    cases h
    exact .file (o := some bytes) rfl rfl rfl (.inr hm)
  · cases h
    exact .same rfl
  · split at h
    · cases h
      exact .quiet rfl rfl (fun d howes => .inl howes)
    · rename_i hnone
      cases h
      refine .quiet rfl rfl (fun d howes => .inr ?_)
      cases howes
      exact hm hnone
  · cases h
    refine .quiet rfl rfl (fun d howes => .inr ?_)
    cases howes
    exact hm
  · rename_i digest size time
    cases h
    refine .entry (o := some ⟨size, time⟩) rfl rfl rfl hm.1 (fun e he => ?_)
    cases he
    exact hm.2
  · cases h

theorem evictStep_cacheEffect (h : evictStep g stage event = some (g', stage'))
    (hm : CallMeets cfg other g stage event) : CacheEffect cfg other g stage g' stage' := by
  unfold evictStep at h
  split at h
  · cases h
    exact .file (o := none) rfl rfl rfl (.inl rfl)
  · cases h
    exact .same rfl
  · cases h
    exact .quiet rfl rfl (fun d howes => .inl howes)
  · cases h
    exact .quiet rfl rfl (fun d howes => .inl howes)
  · cases h
    exact .removed rfl hm
  · cases h

theorem inProgress_of_owes {digest : Digest} (h : owes stage = some digest) : stage.inProgress = true := by
  cases stage <;> first | rfl | cases h

theorem callStep_cacheEffect (h : callStep cfg g stage event = some (g', stage'))
    (hm : CallMeets cfg other g stage event) : CacheEffect cfg other g stage g' stage' := by
  unfold callStep at h
  split at h
  · rename_i call
    split at h
    · cases h
    · rename_i hidle
      cases h
      refine .same ?_
      cases hs : owes stage with
      | none => rfl
      | some digest => exact absurd (inProgress_of_owes hs) hidle
  · have hcancel : ∀ d, owes stage = some d → IndexAgrees g d ∨ other d := by
      cases stage <;> exact hm
    split at h
    · cases h
      exact .quiet rfl rfl (fun d howes => .inr (hcancel d howes))
    · cases h
  · simp only [Option.or_eq_some_iff] at h
    rcases h with h | ⟨-, h | ⟨-, h | ⟨-, h⟩⟩⟩
    · exact getStep_cacheEffect h hm
    · exact gcForStep_cacheEffect h hm
    · exact insertStep_cacheEffect h hm
    · exact evictStep_cacheEffect h hm

/-! ## What one operation keeps -/

theorem IndexAgrees.congr {d : Digest} (hindex : g'.index.get d = g.index.get d)
    (hdisk : g'.disk.get d = g.disk.get d) (h : IndexAgrees g d) : IndexAgrees g' d := by
  unfold IndexAgrees
  rw [hindex, hdisk]
  exact h

/-- For each digest an operation does nothing, or goes on to owe it, or leaves index and disk in
agreement, or leaves it to another call. -/
theorem CacheEffect.handles (h : CacheEffect cfg other g stage g' stage') (d : Digest) :
    ((IndexAgrees g d → IndexAgrees g' d) ∧ (owes stage = some d → owes stage' = some d)) ∨
      owes stage' = some d ∨ IndexAgrees g' d ∨ other d := by
  have hnothing : owes stage = none → owes stage = some d → owes stage' = some d := by
    intro hnone hsome
    rw [hnone] at hsome
    cases hsome
  cases h with
  | quiet hindex hdisk howes =>
    have hkeep : IndexAgrees g d → IndexAgrees g' d := IndexAgrees.congr (by rw [hindex]) (by rw [hdisk])
    by_cases hd : owes stage = some d
    · rcases howes d hd with h | h | h
      · exact .inr (.inl h)
      · exact .inr (.inr (.inl (hkeep h)))
      · exact .inr (.inr (.inr h))
    · exact .inl ⟨hkeep, fun h => absurd h hd⟩
  | @touched digest entry time hentry hindex hdisk howes =>
    refine .inl ⟨fun hagrees => ?_, hnothing howes⟩
    unfold IndexAgrees at hagrees ⊢
    rw [hindex, hdisk, Column.get_insert, ← hagrees]
    split
    · rename_i heq
      rw [← heq, hentry]
      rfl
    · rfl
  | @file digest o hindex hdisk howes hleaves =>
    by_cases hd : digest = d
    · subst hd
      rcases hleaves with h | h | h
      · exact .inr (.inl h)
      · refine .inr (.inr (.inl ?_))
        unfold IndexAgrees
        rw [hindex, hdisk, Column.get_write_self, h]
      · exact .inr (.inr (.inr h))
    · refine .inl ⟨IndexAgrees.congr (by rw [hindex]) ?_, hnothing howes⟩
      rw [hdisk, Column.get_write_ne _ hd]
  | @entry digest o hindex hdisk howes hfound hroom =>
    by_cases hd : digest = d
    · subst hd
      rcases hfound with h | h
      · refine .inr (.inr (.inl ?_))
        unfold IndexAgrees
        rw [hindex, hdisk, Column.get_write_self, h]
      · exact .inr (.inr (.inr h))
    · refine .inl ⟨IndexAgrees.congr ?_ (by rw [hdisk]), fun h => ?_⟩
      · rw [hindex, Column.get_write_ne _ hd]
      · rw [howes] at h
        exact absurd (Option.some.inj h) hd

theorem totalBytes_erase_le (index : Column Digest Entry) (digest : Digest) :
    (index.erase digest).total (fun _ e => e.sizeBytes) ≤ index.total (fun _ e => e.sizeBytes) := by
  have h := Column.total_write index (fun _ e => e.sizeBytes) digest none
  rw [Column.write, Column.part_none] at h
  omega

theorem totalBytes_insert (index : Column Digest Entry) (digest : Digest) (entry : Entry) :
    (index.insert digest entry).total (fun _ e => e.sizeBytes) =
      (index.erase digest).total (fun _ e => e.sizeBytes) + entry.sizeBytes := by
  have hin := Column.total_write index (fun _ e => e.sizeBytes) digest (some entry)
  have hout := Column.total_write index (fun _ e => e.sizeBytes) digest none
  rw [Column.write, Column.part_some] at hin
  rw [Column.write, Column.part_none] at hout
  omega

/-- A new time leaves the total as it is. -/
theorem totalBytes_touch {index : Column Digest Entry} {digest : Digest} {entry : Entry}
    (h : index.get digest = some entry) (time : Nat) :
    (index.insert digest { entry with lastUsed := time }).total (fun _ e => e.sizeBytes) =
      index.total (fun _ e => e.sizeBytes) := by
  have hin := Column.total_write index (fun _ e => e.sizeBytes) digest (some { entry with lastUsed := time })
  rw [Column.write, Column.part_some, h, Column.part_some] at hin
  exact Nat.add_right_cancel hin

theorem CacheEffect.bounded (h : CacheEffect cfg other g stage g' stage')
    (hcap : g.totalBytes ≤ cfg.maxBytes.val) : g'.totalBytes ≤ cfg.maxBytes.val := by
  cases h with
  | quiet hindex hdisk howes => rwa [Shared.totalBytes, hindex]
  | touched hentry hindex hdisk howes =>
    rw [Shared.totalBytes, hindex, totalBytes_touch hentry]
    exact hcap
  | file hindex hdisk howes hleaves => rwa [Shared.totalBytes, hindex]
  | @entry digest o hindex hdisk howes hfound hroom =>
    rw [Shared.totalBytes, hindex]
    cases o with
    | none => exact (totalBytes_erase_le g.index digest).trans hcap
    | some e =>
      rw [Column.write, totalBytes_insert]
      exact hroom e rfl

end

/-! ## Runs -/

/-- Where index and disk differ, some call owes the digest; the index is within the cap. -/
structure Accounted (cfg : Config) (s : Cache.State) : Prop where
  owed : ∀ digest, IndexAgrees s.shared digest ∨ ∃ id, owes (s.calls id) = some digest
  bounded : s.shared.totalBytes ≤ cfg.maxBytes.val

variable {cfg : Config} {s s' : Cache.State} {l : Label}

theorem accounted_step (hs : Accounted cfg s) (hm : StepMeets cfg s l) (h : CacheStep cfg s l s') :
    Accounted cfg s' := by
  cases l with
  | staged path bytes =>
    cases h
    exact ⟨hs.owed, hs.bounded⟩
  | call id event =>
    obtain ⟨⟨g', stage'⟩, hcall, rfl⟩ := Option.map_eq_some_iff.mp h
    have heffect := callStep_cacheEffect hcall hm
    refine ⟨fun digest => ?_, heffect.bounded hs.bounded⟩
    rcases heffect.handles digest with ⟨hkeeps, howes⟩ | howes | hagrees | ⟨other, hne, howes⟩
    · rcases hs.owed digest with hagrees | ⟨other, hother⟩
      · exact .inl (hkeeps hagrees)
      · refine .inr ⟨other, ?_⟩
        by_cases hid : other = id
        · subst hid
          simp only [Function.update_self]
          exact howes hother
        · simp only [Function.update_of_ne hid]
          exact hother
    · exact .inr ⟨id, by simp only [Function.update_self]; exact howes⟩
    · exact .inl hagrees
    · exact .inr ⟨other, by simp only [Function.update_of_ne hne]; exact howes⟩

theorem Accounted.inSync (hs : Accounted cfg s) (hquiet : s.Quiet) : InSync cfg s := by
  have hlisted : indexedSizes s.shared = s.shared.disk := by
    apply Column.ext_get
    intro digest
    rw [indexedSizes, ← id_eq digest, Column.image_get]
    rcases hs.owed digest with hagrees | ⟨id, howes⟩
    · exact hagrees
    · have hrunning := inProgress_of_owes howes
      rw [hquiet id] at hrunning
      cases hrunning
  refine ⟨hlisted, ?_, hs.bounded⟩
  rw [Shared.bytesOnDisk, ← hlisted, indexedSizes, Column.total_image]
  rfl

section

variable {files : Column Digest Nat} {accessed : Digest → Nat} {staged : Nat → Option Nat}

/-- An opened cache lists what is on disk. -/
theorem opened_agrees (digest : Digest) : IndexAgrees (State.opened files accessed staged).shared digest := by
  apply Option.ext
  intro size
  rw [Option.map_eq_some_iff]
  constructor
  · rintro ⟨entry, hentry, rfl⟩
    obtain ⟨⟨d, n⟩, hmem, heq⟩ := List.mem_map.mp (Column.get_eq_some.mp hentry)
    obtain ⟨rfl, rfl⟩ := Prod.mk.inj heq
    exact Column.get_eq_some.mpr hmem
  · intro hsize
    exact ⟨⟨size, accessed digest⟩,
      Column.get_eq_some.mpr (List.mem_map.mpr ⟨(digest, size), Column.get_eq_some.mp hsize, rfl⟩), rfl⟩

theorem opened_totalBytes :
    (State.opened files accessed staged).shared.totalBytes = files.total (fun _ size => size) := by
  simp only [Shared.totalBytes, State.opened, Column.total, List.map_map, Function.comp_def]

theorem opened_accounted (hopen : files.total (fun _ size => size) ≤ cfg.maxBytes.val) :
    Accounted cfg (State.opened files accessed staged) :=
  ⟨fun digest => .inl (opened_agrees digest), by rw [opened_totalBytes]; exact hopen⟩

/-- On a cache opened within its cap, a run all of whose steps meet the condition has index and disk in
agreement and within the cap whenever no call is in progress. -/
theorem cache_in_sync {hist : List Label} {t : Cache.State}
    (hopen : files.total (fun _ size => size) ≤ cfg.maxBytes.val)
    (run : Steps (CacheStep cfg) (State.opened files accessed staged) hist t)
    (along : Along (CacheStep cfg) (State.opened files accessed staged) (StepMeets cfg) hist)
    (hquiet : t.Quiet) : InSync cfg t :=
  (run.invariant_along (Accounted cfg) (opened_accounted hopen) (fun _ _ _ hs hm h => accounted_step hs hm h)
    along).inSync hquiet

end

/-! ## Calls one at a time -/

def fails : Event → Bool
  | .ioError | .crossDevice | .broken _ | .cancel => true
  | _ => false

/-- Nothing else runs, no operation fails, and nothing is staged while a call runs. -/
def OneAtATime (s : Cache.State) : Label → Prop
  | .call id event => (∀ other, other ≠ id → (s.calls other).inProgress = false) ∧ fails event = false
  | .staged _ _ => s.Quiet

/-- The file that an insert measured is still there. -/
def StillStaged (g : Shared) (size : Nat) (after : Option (Digest × Nat)) : Prop :=
  ∀ digest srcPath, after = some (digest, srcPath) → g.staged srcPath = some size

/-- What a call that runs alone knows of files and index. -/
def Knows (cfg : Config) (g : Shared) : Cache.Stage → Prop
  | .getPrune digest | .evictPartial digest | .evictIndex digest => g.disk.get digest = none
  | .gcCheck incoming after => StillStaged g incoming after
  | .gcTotal incoming _ after | .gcPick incoming _ after | .gcRemove incoming _ after _ =>
      incoming ≤ cfg.maxBytes.val ∧ StillStaged g incoming after
  | .gcForget incoming _ after victim =>
      (incoming ≤ cfg.maxBytes.val ∧ StillStaged g incoming after) ∧ g.disk.get victim = none
  | .insertMkdir _ srcPath size | .insertRename _ srcPath size =>
      g.staged srcPath = some size ∧ g.totalBytes + size ≤ cfg.maxBytes.val
  | .insertIndex digest size =>
      g.disk.get digest = some size ∧ g.totalBytes + size ≤ cfg.maxBytes.val
  | .insertCopy _ _ _ | .insertUnlink _ _ _ => False
  | _ => True

section

variable {other : Digest → Prop} {g g' : Shared} {stage stage' : Cache.Stage} {event : Event}

theorem knows_of_not_inProgress (h : stage.inProgress = false) : Knows cfg g stage := by
  cases stage <;> first | exact trivial | cases h

theorem knows_gcDone {incoming freed : Nat} {after : Option (Digest × Nat)}
    (hstaged : StillStaged g incoming after) (hfits : g.totalBytes + incoming ≤ cfg.maxBytes.val) :
    Knows cfg g (gcDone incoming freed after) := by
  rcases after with _ | ⟨digest, srcPath⟩
  · exact trivial
  · exact ⟨hstaged digest srcPath rfl, hfits⟩

theorem getStep_alone (hk : Knows cfg g stage) (hok : fails event = false)
    (h : getStep g stage event = some (g', stage')) :
    CallMeets cfg other g stage event ∧ Knows cfg g' stage' := by
  unfold getStep at h
  split at h
  · split at h <;> cases h <;> exact ⟨trivial, trivial⟩
  · rename_i digest
    cases h
    refine ⟨trivial, ?_⟩
    split
    · exact trivial
    · rename_i hnone
      exact Option.not_isSome_iff_eq_none.mp hnone
  · cases hok
  · cases h
    exact ⟨.inl hk, trivial⟩
  · cases h

theorem gcForStep_alone (hk : Knows cfg g stage) (hok : fails event = false)
    (h : gcForStep cfg g stage event = some (g', stage')) :
    CallMeets cfg other g stage event ∧ Knows cfg g' stage' := by
  unfold gcForStep at h
  split at h
  · cases h
    refine ⟨trivial, ?_⟩
    split
    · exact trivial
    · rename_i hfits
      exact ⟨Nat.le_of_not_lt hfits, hk⟩
  · cases h
    refine ⟨trivial, ?_⟩
    split
    · rename_i hfits
      exact knows_gcDone hk.2 hfits
    · exact hk
  · split at h
    · rename_i hempty
      cases h
      refine ⟨trivial, knows_gcDone hk.2 ?_⟩
      have hzero : g.totalBytes = 0 := by rw [Shared.totalBytes, Column.total, hempty]; rfl
      rw [hzero, Nat.zero_add]
      exact hk.1
    · cases h
  · split at h
    · cases h
      exact ⟨trivial, hk⟩
    · cases h
  · rename_i incoming freed after victim
    cases h
    exact ⟨trivial, hk, by simp only [Column.get_erase, ↓reduceIte]⟩
  · cases hok
  · cases h
    exact ⟨.inl hk.2, hk.1⟩
  · cases h

theorem insertStep_alone (hk : Knows cfg g stage) (hok : fails event = false)
    (h : insertStep g stage event = some (g', stage')) :
    CallMeets cfg other g stage event ∧ Knows cfg g' stage' := by
  unfold insertStep at h
  split at h
  · rename_i digest srcPath
    split at h
    · rename_i size hsize
      cases h
      refine ⟨trivial, ?_⟩
      rintro _ _ ⟨⟩
      exact hsize
    · cases h
      exact ⟨trivial, trivial⟩
  · cases hok
  · cases h
    exact ⟨trivial, hk⟩
  · cases hok
  · rename_i digest srcPath size
    rw [hk.1] at h
    cases h
    exact ⟨trivial, by simp only [Column.get_insert, ↓reduceIte], hk.2⟩
  · cases hok
  · cases hok
  · exact hk.elim
  · cases hok
  · cases hok
  · exact hk.elim
  · cases hok
  · rename_i digest size time
    cases h
    refine ⟨⟨.inl hk.1, ?_⟩, trivial⟩
    exact (Nat.add_le_add_right (totalBytes_erase_le g.index digest) size).trans hk.2
  · cases h

theorem evictStep_alone (hk : Knows cfg g stage) (hok : fails event = false)
    (h : evictStep g stage event = some (g', stage')) :
    CallMeets cfg other g stage event ∧ Knows cfg g' stage' := by
  unfold evictStep at h
  split at h
  · cases h
    refine ⟨trivial, ?_⟩
    show Column.get _ _ = none
    simp only [Column.get_erase, ↓reduceIte]
  · cases hok
  · cases h
    exact ⟨trivial, hk⟩
  · cases hok
  · cases h
    exact ⟨.inl hk, trivial⟩
  · cases h

theorem callStep_alone (hk : Knows cfg g stage) (hok : fails event = false)
    (h : callStep cfg g stage event = some (g', stage')) :
    CallMeets cfg other g stage event ∧ Knows cfg g' stage' := by
  unfold callStep at h
  split at h
  · rename_i call
    split at h
    · cases h
    · cases h
      refine ⟨?_, ?_⟩
      · cases stage <;> exact trivial
      · cases call with
        | gcFor incoming => exact fun digest srcPath hnone => by cases hnone
        | get digest => exact trivial
        | insert digest srcPath => exact trivial
        | evict digest => exact trivial
  · cases hok
  · simp only [Option.or_eq_some_iff] at h
    rcases h with h | ⟨-, h | ⟨-, h | ⟨-, h⟩⟩⟩
    · exact getStep_alone hk hok h
    · exact gcForStep_alone hk hok h
    · exact insertStep_alone hk hok h
    · exact evictStep_alone hk hok h

end

theorem alone_step (hs : Accounted cfg s ∧ ∀ id, Knows cfg s.shared (s.calls id)) (hl : OneAtATime s l)
    (h : CacheStep cfg s l s') : Accounted cfg s' ∧ ∀ id, Knows cfg s'.shared (s'.calls id) := by
  cases l with
  | staged path bytes =>
    have hmeets : StepMeets cfg s (.staged path bytes) := trivial
    refine ⟨accounted_step hs.1 hmeets h, fun id => ?_⟩
    cases h
    exact knows_of_not_inProgress (hl id)
  | call id event =>
    obtain ⟨⟨g', stage'⟩, hcall, hnext⟩ := Option.map_eq_some_iff.mp h
    obtain ⟨hcallMeets, hknows⟩ := callStep_alone (hs.2 id) hl.2 hcall
    have hmeets : StepMeets cfg s (.call id event) := hcallMeets
    refine ⟨accounted_step hs.1 hmeets h, fun q => ?_⟩
    subst hnext
    by_cases hq : q = id
    · subst hq
      simp only [Function.update_self]
      exact hknows
    · simp only [Function.update_of_ne hq]
      exact knows_of_not_inProgress (hl.1 q hq)

/-- Calls that do not overlap and do not fail leave index and disk in agreement below the cap. -/
theorem alone_in_sync {files : Column Digest Nat} {accessed : Digest → Nat} {staged : Nat → Option Nat}
    {hist : List Label} {t : Cache.State} (hopen : files.total (fun _ size => size) ≤ cfg.maxBytes.val)
    (run : Steps (CacheStep cfg) (State.opened files accessed staged) hist t)
    (along : Along (CacheStep cfg) (State.opened files accessed staged) OneAtATime hist)
    (hquiet : t.Quiet) : InSync cfg t :=
  (run.invariant_along (fun u => Accounted cfg u ∧ ∀ id, Knows cfg u.shared (u.calls id))
    ⟨opened_accounted hopen, fun _ => trivial⟩ (fun _ _ _ hs hl h => alone_step hs hl h) along).1.inSync
    hquiet

/-! ## Two inserts in one room -/

/-- A cache for one byte. -/
def oneByte : Config := ⟨1⟩

/-- Two source paths with a file of one byte each. -/
def twoStaged (path : Nat) : Option Nat := if path < 2 then some 1 else none

/-- Measure, ask for room and move the file, then enter it in the index. -/
def wholeInsert (id : Nat) (digest : Digest) (path time : Nat) : List Label :=
  [.call id (.start (.insert digest path)), .call id .step, .call id .step, .call id .step, .call id .step,
    .call id .step, .call id (.now time)]

/-- Each insert is let through before the other one enters its file. -/
def overlapping : List Label :=
  [.call 0 (.start (.insert 1 0)), .call 1 (.start (.insert 2 1)),
    .call 0 .step, .call 0 .step, .call 0 .step, .call 1 .step, .call 1 .step, .call 1 .step,
    .call 0 .step, .call 0 .step, .call 0 (.now 5), .call 1 .step, .call 1 .step, .call 1 (.now 6)]

theorem overlapping_overfull : ∃ t,
    overlapping.foldlM (State.next oneByte) (State.opened Column.empty (fun _ => 0) twoStaged) = some t ∧
      t.shared.totalBytes = 2 ∧ t.Quiet := by
  refine ⟨_, rfl, rfl, ?_⟩
  intro id
  rcases id with _ | _ | id <;> rfl

/-- Two bytes are left in a cache for one. -/
theorem overlapping_inserts :
    ¬ ∀ (cfg : Config) (files : Column Digest Nat) (accessed : Digest → Nat) (staged : Nat → Option Nat)
      (hist : List Label) (t : Cache.State), files.total (fun _ size => size) ≤ cfg.maxBytes.val →
      Steps (CacheStep cfg) (State.opened files accessed staged) hist t → t.Quiet → InSync cfg t := by
  intro h
  obtain ⟨t, ht, htotal, hquiet⟩ := overlapping_overfull
  have hsync := h oneByte Column.empty (fun _ => 0) twoStaged overlapping t (by decide)
    (steps_of_foldlM ht) hquiet
  have hbounded := hsync.bounded
  rw [htotal] at hbounded
  exact absurd hbounded (by decide)

theorem cacheStep_deterministic : Deterministic (CacheStep cfg) := by
  intro s l t t' h h'
  exact Option.some.inj (h.symm.trans h')

/-- An insert on its own finds its file and its room. -/
theorem wholeInsert_meets :
    Along (CacheStep oneByte) (State.opened Column.empty (fun _ => 0) twoStaged) (StepMeets oneByte)
      (wholeInsert 0 1 0 5) := by
  refine along_cons cacheStep_deterministic rfl trivial ?_
  refine along_cons cacheStep_deterministic rfl trivial ?_
  refine along_cons cacheStep_deterministic rfl trivial ?_
  refine along_cons cacheStep_deterministic rfl trivial ?_
  refine along_cons cacheStep_deterministic rfl trivial ?_
  refine along_cons cacheStep_deterministic rfl trivial ?_
  exact along_cons cacheStep_deterministic rfl ⟨.inl rfl, by decide⟩ along_nil

theorem cache_in_sync_wholeInsert : ∃ t,
    Steps (CacheStep oneByte) (State.opened Column.empty (fun _ => 0) twoStaged) (wholeInsert 0 1 0 5) t ∧
      t.shared.totalBytes = 1 ∧ InSync oneByte t := by
  obtain ⟨t, ht, htotal, hquiet⟩ : ∃ t, (wholeInsert 0 1 0 5).foldlM (State.next oneByte)
      (State.opened Column.empty (fun _ => 0) twoStaged) = some t ∧ t.shared.totalBytes = 1 ∧ t.Quiet := by
    refine ⟨_, rfl, rfl, fun id => ?_⟩
    rcases id with _ | id <;> rfl
  exact ⟨t, steps_of_foldlM ht, htotal,
    cache_in_sync (by decide) (steps_of_foldlM ht) wholeInsert_meets hquiet⟩

end Arknet.Laws
