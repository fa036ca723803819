import Arknet.Lib.Runs
import Arknet.ModelManager.Download

/-!
Concurrent downloads of one model. What ends up in the slot is what was renamed to the staging file;
that is what was hashed when the partial file was not shared at that moment.
-/

namespace Arknet.Laws

open Arknet.Chain Arknet.ModelManager

section

variable (K : Primitives) (m : ModelManifest)

def DownloadStep (s : Downloads) (l : Nat × Event) (s' : Downloads) : Prop := s.advance K m l = some s'

/-- Whatever is in the slot hashes to the digest the slot is for. -/
def SlotSound (s : Downloads) : Prop :=
  ∀ bytes, s.shared.disk.read .slot = some bytes → K.sha256 bytes = m.sha256

/-- When a call publishes its download, the partial file holds exactly the bytes that the call hashed
and no other call has it open. -/
def PublishesOwn (s : Downloads) (l : Nat × Event) : Prop :=
  ∀ hashed, s.calls l.1 = .publish hashed → l.2 = .step →
    ∀ file, s.shared.disk.names .partialFile = some file →
      s.shared.disk.files file = hashed ∧ ∀ q, (s.calls q).opened ≠ some file

/-- What is staged or in the slot is verified and out of reach of every call. -/
structure Verified (s : Downloads) : Prop where
  digest : ∀ n file, n ≠ .partialFile → s.shared.disk.names n = some file →
    K.sha256 (s.shared.disk.files file) = m.sha256
  apart : ∀ n file, n ≠ .partialFile → s.shared.disk.names n = some file →
    s.shared.disk.names .partialFile ≠ some file
  closed : ∀ n file, n ≠ .partialFile → s.shared.disk.names n = some file →
    ∀ q, (s.calls q).opened ≠ some file
  exist : ∀ q file, (s.calls q).opened = some file → file < s.shared.disk.next
  hashed : ∀ q bytes, s.calls q = .publish bytes → K.sha256 bytes = m.sha256

end

/-! ## What one operation does -/

/-- Between the first look at the partial file and its renaming. -/
def Pulling : Stage → Prop
  | .mirror _ | .discard _ | .measure _ | .request _ _ | .restart _ _ | .opening _ _ _ => True
  | .reading _ _ _ _ | .streaming _ _ _ _ _ | .poisoned _ | .publish _ => True
  | _ => False

/-- A stage with nothing open and nothing known of the partial file. -/
def Resting : Stage → Prop
  | .request _ _ | .opening _ _ _ | .reading _ _ _ _ | .streaming _ _ _ _ _ | .publish _ => False
  | _ => True

theorem Resting.opened {stage : Stage} (h : Resting stage) : stage.opened = none := by
  cases stage <;> first | rfl | cases h

theorem Resting.quiet {stage : Stage} (h : Resting stage) (bytes : List UInt8) :
    stage ≠ .publish bytes := by
  rintro rfl
  cases h

section

variable {K : Primitives} {m : ModelManifest}

/-- An operation of a call, by what it does to the disk and where it leads. -/
inductive Effect (K : Primitives) (m : ModelManifest) (d : Disk FileName) :
    Stage → Disk FileName → Stage → Prop where
  | rests {stage stage' : Stage} (h : Resting stage') : Effect K m d stage d stage'
  | removed {stage stage' : Stage} {d' : Disk FileName} {n : FileName} (h : d.unlink n = some d')
      (hrest : Resting stage') (hpart : n = .partialFile → Pulling stage) : Effect K m d stage d' stage'
  | measured {stage : Stage} (left : List String) :
      Effect K m d stage d (.request left (onDisk d))
  | responded (left : List String) (resumeFrom : Nat) (r : Response) :
      Effect K m d (.request left resumeFrom) d (respondStep left resumeFrom r)
  | restarted {left : List String} {body : List UInt8} {d' : Disk FileName}
      (h : d.unlink .partialFile = some d') : Effect K m d (.restart left body) d' (.opening left 0 body)
  | opened (left : List String) (offset : Nat) (body : List UInt8) :
      Effect K m d (.opening left offset body) (d.openAppend .partialFile).1
        (if 0 < offset then .reading left (d.openAppend .partialFile).2 offset body
          else .streaming left (d.openAppend .partialFile).2 [] 0 body)
  | read {left : List String} {file offset : Nat} {body existing : List UInt8}
      (h : d.read .partialFile = some existing) :
      Effect K m d (.reading left file offset body) d (.streaming left file existing offset body)
  | appended {left : List String} {file bytesWritten : Nat} {hashed body : List UInt8} {stage' : Stage}
      (chunk : List UInt8) (h : Resting stage' ∨ ∃ written rest,
        stage' = .streaming left file (hashed ++ chunk) written rest) :
      Effect K m d (.streaming left file hashed bytesWritten body) (d.append file chunk) stage'
  | ended {left : List String} {file bytesWritten : Nat} {hashed body : List UInt8}
      (h : K.sha256 hashed = m.sha256) :
      Effect K m d (.streaming left file hashed bytesWritten body) d (.publish hashed)
  | published {d' : Disk FileName} {hashed : List UInt8} (h : d.rename .partialFile .staging = some d') :
      Effect K m d (.publish hashed) d' .checkStaged
  | stored {d' : Disk FileName} (h : d.rename .staging .slot = some d') : Effect K m d .store d' .index

variable {g g' : Shared} {stage stage' : Stage}

theorem Effect.quietly {d : Disk FileName} {n : FileName} (hrest : Resting stage')
    (hpart : n = .partialFile → Pulling stage) : Effect K m d stage (removeQuietly d n) stage' := by
  unfold removeQuietly
  cases h : d.unlink n with
  | none => exact .rests hrest
  | some d' => exact .removed h hrest hpart

theorem lookupStep_effect (h : lookupStep m g stage = some (g', stage')) :
    Effect K m g.disk stage g'.disk stage' := by
  unfold lookupStep at h
  split at h
  · cases h
    exact .rests trivial
  · cases h
    split <;> exact .rests trivial
  · split at h
    · cases h
      exact .rests trivial
    · cases h
      exact .rests trivial
  · cases h
    split <;> exact .rests trivial
  · cases h

theorem pullStep_effect (h : pullStep m g stage = some (g', stage')) :
    Effect K m g.disk stage g'.disk stage' := by
  unfold pullStep at h
  split at h
  · cases h
    exact .rests trivial
  · cases h
    split <;> exact .rests trivial
  · split at h
    · rename_i d hd
      cases h
      exact .removed hd trivial (fun _ => trivial)
    · cases h
      exact .rests trivial
  · cases h
    exact .measured _
  · split at h
    · rename_i d hd
      cases h
      exact .restarted hd
    · cases h
      exact .rests trivial
  · cases h
    exact .opened _ _ _
  · split at h
    · rename_i existing hread
      cases h
      split
      · exact .read hread
      · exact .rests trivial
    · cases h
      exact .rests trivial
  · cases h

theorem endStep_effect (h : endStep K m g stage = some (g', stage')) :
    Effect K m g.disk stage g'.disk stage' := by
  unfold endStep at h
  split at h
  · cases h
    split
    · exact .rests trivial
    · split
      · exact .rests trivial
      · rename_i hdigest
        exact .ended (not_not.mp hdigest)
  · cases h
    exact .quietly trivial (fun _ => trivial)
  · split at h
    · rename_i d hd
      cases h
      exact .published hd
    · cases h
      exact .rests trivial
  · cases h

theorem insertStep_effect (h : insertStep m g stage = some (g', stage')) :
    Effect K m g.disk stage g'.disk stage' := by
  unfold insertStep at h
  split at h
  · cases h
    split <;> exact .rests trivial
  · cases h
    exact .quietly trivial (fun hn => by cases hn)
  · cases h
    exact .quietly trivial (fun hn => by cases hn)
  · cases h
    exact .rests trivial
  · cases h
    split <;> exact .rests trivial
  · split at h
    · rename_i d hd
      cases h
      exact .stored hd
    · cases h
      exact .rests trivial
  · cases h
    exact .rests trivial
  · cases h

theorem gcStep_effect {o : GcOutcome} (h : gcStep g o = some (g', stage')) :
    Effect K m g.disk stage g'.disk stage' := by
  unfold gcStep at h
  split at h
  · cases h
    exact .rests trivial
  · cases h
    exact .rests trivial
  · split at h
    · cases h
      exact .quietly trivial (fun hn => by cases hn)
    · cases h

theorem chunkStep_effect {n : Nat} (h : chunkStep m g n stage = some (g', stage')) :
    Effect K m g.disk stage g'.disk stage' := by
  unfold chunkStep at h
  split at h
  · split at h
    · cases h
    · dsimp only at h
      split at h
      · cases h
        exact .appended _ (.inl trivial)
      · cases h
        exact .appended _ (.inr ⟨_, _, rfl⟩)
  · cases h

/-- Everything an operation can do. -/
theorem callStep_effect {e : Event} (h : callStep K m g stage e = some (g', stage')) :
    Effect K m g.disk stage g'.disk stage' := by
  unfold callStep at h
  split at h
  · simp only [Option.or_eq_some_iff] at h
    obtain h | ⟨-, h | ⟨-, h | ⟨-, h⟩⟩⟩ := h
    · exact lookupStep_effect h
    · exact pullStep_effect h
    · exact endStep_effect h
    · exact insertStep_effect h
  · split at h
    · cases h
      exact .responded _ _ _
    · cases h
  · exact chunkStep_effect h
  · split at h
    · cases h
      exact .rests trivial
    · cases h
  · split at h
    · exact gcStep_effect h
    · cases h
  · cases h
    exact .rests trivial

theorem respondStep_quiet (left : List String) (resumeFrom : Nat) (r : Response) :
    (respondStep left resumeFrom r).opened = none ∧
      ∀ bytes, respondStep left resumeFrom r ≠ .publish bytes := by
  unfold respondStep
  split
  · exact ⟨rfl, by simp⟩
  · split
    · exact ⟨rfl, by simp⟩
    · exact ⟨rfl, by simp⟩
  · exact ⟨rfl, by simp⟩

/-- A call publishes by a step of its own. -/
theorem publish_by_step {e : Event} {hashed : List UInt8}
    (h : callStep K m g (.publish hashed) e = some (g', .checkStaged)) : e = .step := by
  cases e with
  | step => rfl
  | cancel => cases h
  | _ => cases h

/-! ## What is verified stays verified -/

variable {s s' : Downloads} {l : Nat × Event}

theorem downloadStep_iff : DownloadStep K m s l s' ↔ ∃ g stage,
    callStep K m s.shared (s.calls l.1) l.2 = some (g, stage) ∧
      s' = ⟨g, Function.update s.calls l.1 stage⟩ := by
  simp only [DownloadStep, Downloads.advance, Option.map_eq_some_iff, Prod.exists]
  constructor
  · rintro ⟨g, stage, h, rfl⟩
    exact ⟨g, stage, h, rfl⟩
  · rintro ⟨g, stage, h, rfl⟩
    exact ⟨g, stage, h, rfl⟩

/-- Who has a file open after a step: the call that took it, or another that had it open before. -/
theorem opened_update {calls : Nat → Stage} {p q file : Nat}
    (h : (Function.update calls p stage q).opened = some file) :
    (q = p ∧ stage.opened = some file) ∨ (q ≠ p ∧ (calls q).opened = some file) := by
  by_cases hq : q = p
  · subst hq
    rw [Function.update_self] at h
    exact .inl ⟨rfl, h⟩
  · rw [Function.update_of_ne hq] at h
    exact .inr ⟨hq, h⟩

theorem publish_update {calls : Nat → Stage} {p q : Nat} {bytes : List UInt8}
    (h : Function.update calls p stage q = .publish bytes) :
    stage = .publish bytes ∨ calls q = .publish bytes := by
  by_cases hq : q = p
  · subst hq
    rw [Function.update_self] at h
    exact .inl h
  · rw [Function.update_of_ne hq] at h
    exact .inr h

/-- A step after which every staged or stored file was one before, on which the names other than the
partial file's and all handles still keep off, keeps everything verified. -/
theorem Verified.of_names (hv : Verified K m s) {g : Shared} {stage : Stage} {p : Nat}
    (hnames : ∀ n file, n ≠ .partialFile → g.disk.names n = some file →
      ∃ n', n' ≠ .partialFile ∧ s.shared.disk.names n' = some file ∧
        g.disk.files file = s.shared.disk.files file)
    (hpart : ∀ file, g.disk.names .partialFile = some file →
      s.shared.disk.names .partialFile = some file ∨ s.shared.disk.next ≤ file)
    (hopen : ∀ file, stage.opened = some file → file < g.disk.next ∧
      ((s.calls p).opened = some file ∨ s.shared.disk.names .partialFile = some file ∨
        s.shared.disk.next ≤ file))
    (hnext : s.shared.disk.next ≤ g.disk.next)
    (hhash : ∀ bytes, stage = .publish bytes → K.sha256 bytes = m.sha256) :
    Verified K m ⟨g, Function.update s.calls p stage⟩ := by
  constructor
  · intro n file hn hname
    obtain ⟨n', hn', hname', hfile⟩ := hnames n file hn hname
    rw [hfile]
    exact hv.digest n' file hn' hname'
  · intro n file hn hname hp
    obtain ⟨n', hn', hname', -⟩ := hnames n file hn hname
    rcases hpart file hp with hold | hnew
    · exact hv.apart n' file hn' hname' hold
    · exact absurd (s.shared.disk.below n' file hname') (Nat.not_lt.mpr hnew)
  · intro n file hn hname q hq
    obtain ⟨n', hn', hname', -⟩ := hnames n file hn hname
    rcases opened_update hq with ⟨rfl, hstage⟩ | ⟨-, hother⟩
    · rcases (hopen file hstage).2 with hown | hold | hnew
      · exact hv.closed n' file hn' hname' q hown
      · exact hv.apart n' file hn' hname' hold
      · exact absurd (s.shared.disk.below n' file hname') (Nat.not_lt.mpr hnew)
    · exact hv.closed n' file hn' hname' q hother
  · intro q file hq
    rcases opened_update hq with ⟨-, hstage⟩ | ⟨-, hother⟩
    · exact (hopen file hstage).1
    · exact Nat.lt_of_lt_of_le (hv.exist q file hother) hnext
  · intro q bytes hq
    rcases publish_update hq with hstage | hother
    · exact hhash bytes hstage
    · exact hv.hashed q bytes hother

/-- The same for a step that leaves the disk as it is and opens nothing. -/
theorem Verified.of_disk (hv : Verified K m s) {g : Shared} {stage : Stage} {p : Nat}
    (hdisk : g.disk = s.shared.disk) (hopen : stage.opened = none ∨ stage.opened = (s.calls p).opened)
    (hhash : ∀ bytes, stage = .publish bytes → K.sha256 bytes = m.sha256) :
    Verified K m ⟨g, Function.update s.calls p stage⟩ := by
  apply hv.of_names
  · intro n file hn hname
    rw [hdisk] at hname ⊢
    exact ⟨n, hn, hname, rfl⟩
  · intro file hname
    rw [hdisk] at hname
    exact .inl hname
  · intro file hfile
    rcases hopen with hnone | hsame
    · rw [hnone] at hfile
      cases hfile
    · rw [hsame] at hfile
      rw [hdisk]
      exact ⟨hv.exist p file hfile, .inl hfile⟩
  · rw [hdisk]
  · exact hhash

/-- The same for a step that removes a name. -/
theorem Verified.of_unlink (hv : Verified K m s) {g : Shared} {stage : Stage} {p : Nat} {n : FileName}
    (h : s.shared.disk.unlink n = some g.disk) (hopen : stage.opened = none)
    (hquiet : ∀ bytes, stage ≠ .publish bytes) :
    Verified K m ⟨g, Function.update s.calls p stage⟩ := by
  obtain ⟨hnames, hfiles, hnext⟩ := Disk.unlink_eq_some h
  have hkeep : ∀ n file, g.disk.names n = some file → s.shared.disk.names n = some file := by
    intro n file hname
    rw [hnames, Function.update_apply] at hname
    split at hname
    · cases hname
    · exact hname
  apply hv.of_names
  · intro n file hn hname
    rw [hfiles]
    exact ⟨n, hn, hkeep n file hname, rfl⟩
  · intro file hname
    exact .inl (hkeep _ file hname)
  · intro file hfile
    rw [hopen] at hfile
    cases hfile
  · rw [hnext]
  · intro bytes hbytes
    exact absurd hbytes (hquiet bytes)

theorem Verified.of_open (hv : Verified K m s) {g : Shared} {stage : Stage} {p : Nat}
    (hdisk : g.disk = (s.shared.disk.openAppend .partialFile).1)
    (hopen : stage.opened = some (s.shared.disk.openAppend .partialFile).2)
    (hquiet : ∀ bytes, stage ≠ .publish bytes) :
    Verified K m ⟨g, Function.update s.calls p stage⟩ := by
  have hnew : ∀ file, (s.shared.disk.openAppend .partialFile).1.names .partialFile = some file →
      s.shared.disk.names .partialFile = some file ∨ s.shared.disk.next ≤ file := by
    intro file hname
    cases hp : s.shared.disk.names .partialFile with
    | some i =>
      rw [Disk.openAppend_of_some hp, hp] at hname
      exact .inl hname
    | none =>
      rw [Disk.openAppend_names, (Disk.openAppend_of_none hp).1] at hname
      exact .inr (Nat.le_of_eq (Option.some.inj hname))
  apply hv.of_names
  · intro n file hn hname
    obtain ⟨hsame, hfiles⟩ := s.shared.disk.openAppend_other hn
    rw [hdisk, hsame] at hname
    rw [hdisk]
    exact ⟨n, hn, hname, hfiles file hname⟩
  · intro file hname
    rw [hdisk] at hname
    exact hnew file hname
  · intro file hfile
    have hname := s.shared.disk.openAppend_names .partialFile
    rw [← hopen, hfile] at hname
    rw [hdisk]
    exact ⟨(s.shared.disk.openAppend .partialFile).1.below _ file hname, .inr (hnew file hname)⟩
  · rw [hdisk]
    exact s.shared.disk.openAppend_next .partialFile
  · intro bytes hbytes
    exact absurd hbytes (hquiet bytes)

/-- What is staged or stored is not open, so it is not what is appended to. -/
theorem Verified.of_append (hv : Verified K m s) {g : Shared} {stage : Stage} {p file : Nat}
    {chunk : List UInt8} (hdisk : g.disk = s.shared.disk.append file chunk)
    (hfile : (s.calls p).opened = some file) (hopen : stage.opened = none ∨ stage.opened = some file)
    (hquiet : ∀ bytes, stage ≠ .publish bytes) :
    Verified K m ⟨g, Function.update s.calls p stage⟩ := by
  apply hv.of_names
  · intro n i hn hname
    rw [hdisk, Disk.append_names] at hname
    have hne : i ≠ file := by
      rintro rfl
      exact hv.closed n i hn hname p hfile
    rw [hdisk, Disk.append_files_ne _ hne]
    exact ⟨n, hn, hname, rfl⟩
  · intro i hname
    rw [hdisk, Disk.append_names] at hname
    exact .inl hname
  · intro i hi
    rcases hopen with hnone | hsame
    · rw [hnone] at hi
      cases hi
    · rw [hsame] at hi
      obtain rfl := Option.some.inj hi
      rw [hdisk, Disk.append_next]
      exact ⟨hv.exist p file hfile, .inl hfile⟩
  · rw [hdisk, Disk.append_next]
  · intro bytes hbytes
    exact absurd hbytes (hquiet bytes)

theorem Verified.of_store (hv : Verified K m s) {g : Shared} {p : Nat}
    (h : s.shared.disk.rename .staging .slot = some g.disk) :
    Verified K m ⟨g, Function.update s.calls p .index⟩ := by
  obtain ⟨i, hi, hnames, hfiles, hnext⟩ := Disk.rename_eq_some h
  apply hv.of_names
  · intro n file hn hname
    rw [hfiles]
    rw [hnames, Function.update_apply] at hname
    split at hname
    · cases hname
    · rw [Function.update_apply] at hname
      split at hname
      · obtain rfl := Option.some.inj hname
        exact ⟨.staging, by decide, hi, rfl⟩
      · exact ⟨n, hn, hname, rfl⟩
  · intro file hname
    rw [hnames, Function.update_of_ne (by decide), Function.update_of_ne (by decide)] at hname
    exact .inl hname
  · intro file hfile
    cases hfile
  · rw [hnext]
  · intro bytes hbytes
    cases hbytes

/-- A call that publishes just what it hashed adds a verified file. -/
theorem Verified.of_publish (hv : Verified K m s) {g : Shared} {p : Nat} {hashed : List UInt8}
    (hstage : s.calls p = .publish hashed) (hown : PublishesOwn s (p, .step))
    (h : s.shared.disk.rename .partialFile .staging = some g.disk) :
    Verified K m ⟨g, Function.update s.calls p .checkStaged⟩ := by
  obtain ⟨i, hi, hnames, hfiles, hnext⟩ := Disk.rename_eq_some h
  obtain ⟨hcontent, hclosed⟩ := hown hashed hstage rfl i hi
  -- besides the file just renamed there is what was in the slot
  have hcases : ∀ n file, n ≠ .partialFile → g.disk.names n = some file →
      file = i ∨ s.shared.disk.names n = some file := by
    intro n file hn hname
    rw [hnames, Function.update_of_ne hn, Function.update_apply] at hname
    split at hname
    · exact .inl (Option.some.inj hname).symm
    · exact .inr hname
  constructor
  · intro n file hn hname
    show K.sha256 (g.disk.files file) = m.sha256
    rw [hfiles]
    rcases hcases n file hn hname with rfl | hname'
    · rw [hcontent]
      exact hv.hashed p hashed hstage
    · exact hv.digest n file hn hname'
  · intro n file hn hname hp
    have hnone : g.disk.names .partialFile = none := by
      rw [hnames, Function.update_self]
    rw [hnone] at hp
    cases hp
  · intro n file hn hname q hq
    rcases opened_update hq with ⟨-, hstage'⟩ | ⟨-, hother⟩
    · cases hstage'
    · rcases hcases n file hn hname with rfl | hname'
      · exact hclosed q hother
      · exact hv.closed n file hn hname' q hother
  · intro q file hq
    show file < g.disk.next
    rw [hnext]
    rcases opened_update hq with ⟨-, hstage'⟩ | ⟨-, hother⟩
    · cases hstage'
    · exact hv.exist q file hother
  · intro q bytes hq
    rcases publish_update hq with hstage' | hother
    · cases hstage'
    · exact hv.hashed q bytes hother

/-- A step that publishes only its own download keeps everything verified. -/
theorem verified_step (hv : Verified K m s) (hown : PublishesOwn s l) (h : DownloadStep K m s l s') :
    Verified K m s' := by
  obtain ⟨p, e⟩ := l
  obtain ⟨g, stage, hcall, rfl⟩ := downloadStep_iff.mp h
  generalize hold : s.calls p = old at hcall
  have heffect := callStep_effect hcall
  generalize hdisk : g.disk = disk at heffect
  cases heffect with
  | rests hrest =>
    exact hv.of_disk hdisk (.inl hrest.opened) (fun bytes hb => absurd hb (hrest.quiet bytes))
  | removed hunlink hrest =>
    rw [← hdisk] at hunlink
    exact hv.of_unlink hunlink hrest.opened hrest.quiet
  | measured left => exact hv.of_disk hdisk (.inl rfl) (fun bytes hb => by cases hb)
  | responded left resumeFrom r =>
    obtain ⟨hopen, hquiet⟩ := respondStep_quiet left resumeFrom r
    exact hv.of_disk hdisk (.inl hopen) (fun bytes hb => absurd hb (hquiet bytes))
  | restarted hunlink =>
    rw [← hdisk] at hunlink
    exact hv.of_unlink hunlink rfl (fun bytes hb => by cases hb)
  | opened left offset body =>
    apply hv.of_open hdisk
    · split <;> rfl
    · intro bytes
      split <;> exact fun hb => by cases hb
  | read hread => exact hv.of_disk hdisk (.inr (by rw [hold]; rfl)) (fun bytes hb => by cases hb)
  | appended chunk hnext =>
    rename_i left file bytesWritten hashed body
    have hfile : (s.calls p).opened = some file := by
      rw [hold]
      rfl
    apply hv.of_append hdisk hfile
    · rcases hnext with hrest | ⟨written, rest, rfl⟩
      · exact .inl hrest.opened
      · exact .inr rfl
    · intro bytes hb
      rcases hnext with hrest | ⟨written, rest, rfl⟩
      · exact hrest.quiet bytes hb
      · cases hb
  | ended hdigest =>
    apply hv.of_disk hdisk (.inl rfl)
    intro bytes hb
    obtain rfl := Stage.publish.inj hb
    exact hdigest
  | published hrename =>
    obtain rfl := publish_by_step hcall
    rw [← hdisk] at hrename
    exact hv.of_publish hold hown hrename
  | stored hrename =>
    rw [← hdisk] at hrename
    exact hv.of_store hrename

theorem Verified.slotSound (hv : Verified K m s) : SlotSound K m s := by
  intro bytes hread
  obtain ⟨file, hname, rfl⟩ := Option.map_eq_some_iff.mp hread
  exact hv.digest .slot file (by decide) hname

/-- Before any call there is only what an earlier process left: any partial file, and in the other two
places nothing but the model. -/
structure CleanCache (K : Primitives) (m : ModelManifest) (d : Disk FileName) : Prop where
  digest : ∀ n file, n ≠ .partialFile → d.names n = some file → K.sha256 (d.files file) = m.sha256
  apart : ∀ n file, n ≠ .partialFile → d.names n = some file → d.names .partialFile ≠ some file

theorem begin_verified {shared : Shared} (hc : CleanCache K m shared.disk) :
    Verified K m (Downloads.begin shared) where
  digest := hc.digest
  apart := hc.apart
  closed := fun _ _ _ _ _ h => by cases h
  exist := fun _ _ h => by cases h
  hashed := fun _ _ h => by cases h

/-- In every run in which every call publishes only its own download, the slot never holds anything but
the model. Mirrors may be honest or not. -/
theorem slot_sound_throughout {shared : Shared} {hist : List (Nat × Event)}
    (hc : CleanCache K m shared.disk)
    (hown : Runs.Along (DownloadStep K m) (Downloads.begin shared) PublishesOwn hist) :
    Runs.Throughout (DownloadStep K m) (Downloads.begin shared) (fun _ s => SlotSound K m s) hist := by
  intro past rest u heq hu
  have hpast : Runs.Along (DownloadStep K m) (Downloads.begin shared) PublishesOwn past := by
    intro before l after v hsplit hv
    refine hown before l (after ++ rest) v ?_ hv
    rw [heq, hsplit, List.append_assoc, List.cons_append]
  apply Verified.slotSound
  exact hu.invariant_along (Verified K m) (begin_verified hc)
    (fun v l v' hv hpub hstep => verified_step hv hpub hstep) hpast

end

/-! ## One pull at a time -/

/-- What a call takes for granted about the partial file. -/
def Expects (d : Disk FileName) : Stage → Prop
  | .request _ resumeFrom => onDisk d = resumeFrom
  | .opening _ offset _ => onDisk d = offset
  | .reading _ file _ _ => d.names .partialFile = some file
  | .streaming _ file hashed _ _ => d.names .partialFile = some file ∧ d.files file = hashed
  | .publish hashed => ∃ file, d.names .partialFile = some file ∧ d.files file = hashed
  | _ => True

theorem onDisk_unlinked {d d' : Disk FileName} (h : d.unlink .partialFile = some d') : onDisk d' = 0 := by
  obtain ⟨hnames, -, -⟩ := Disk.unlink_eq_some h
  simp only [onDisk, Disk.read, hnames, Function.update_self, Option.map_none, Option.getD_none]

/-- A file that measures nothing is opened empty. -/
theorem opened_empty {d : Disk FileName} (h : onDisk d = 0) :
    (d.openAppend .partialFile).1.files (d.openAppend .partialFile).2 = [] := by
  cases hp : d.names .partialFile with
  | some file =>
    simp only [onDisk, Disk.read, hp, Option.map_some, Option.getD_some] at h
    rw [Disk.openAppend_of_some hp]
    exact List.length_eq_zero_iff.mp h
  | none =>
    obtain ⟨hfile, -, -, hfiles⟩ := Disk.openAppend_of_none hp
    rw [hfile, hfiles, Function.update_self]

section

variable {K : Primitives} {m : ModelManifest} {g g' : Shared} {stage stage' : Stage}

theorem Resting.expects {d : Disk FileName} (h : Resting stage) : Expects d stage := by
  cases stage <;> trivial

/-- A call's own steps keep what it takes for granted. -/
theorem Effect.expects {d d' : Disk FileName} (h : Effect K m d stage d' stage')
    (hx : Expects d stage) : Expects d' stage' := by
  cases h with
  | rests hrest => exact hrest.expects
  | removed hunlink hrest => exact hrest.expects
  | measured left => rfl
  | responded left resumeFrom r =>
    unfold respondStep
    split
    · trivial
    · split
      · trivial
      · rename_i hzero
        have hsize : onDisk d = resumeFrom := hx
        show onDisk d = 0
        omega
    · exact hx
  | restarted hunlink => exact onDisk_unlinked hunlink
  | opened left offset body =>
    have hname := d.openAppend_names .partialFile
    by_cases hpos : 0 < offset
    · rw [if_pos hpos]
      exact hname
    · rw [if_neg hpos]
      have hsize : onDisk d = offset := hx
      exact ⟨hname, opened_empty (by omega)⟩
  | read hread =>
    have hname : d.names .partialFile = some _ := hx
    rw [Disk.read, hname, Option.map_some] at hread
    exact ⟨hname, Option.some.inj hread⟩
  | appended chunk hnext =>
    rcases hnext with hrest | ⟨written, rest, rfl⟩
    · exact hrest.expects
    · obtain ⟨hname, hcontent⟩ := hx
      refine ⟨hname, ?_⟩
      rw [Disk.append_files_self, hcontent]
  | ended hdigest => exact ⟨_, hx⟩
  | published hrename => trivial
  | stored hrename => trivial

/-- Outside a pull a call takes nothing for granted. -/
theorem resting_of_not_pulling (h : ¬ Pulling stage) : Resting stage := by
  cases stage <;> first | trivial | exact absurd trivial h

/-- Outside a pull a call leaves the partial file and all contents alone. -/
theorem Effect.keeps_partial {d d' : Disk FileName} (h : Effect K m d stage d' stage')
    (hout : ¬ Pulling stage) :
    d'.names .partialFile = d.names .partialFile ∧ d'.files = d.files := by
  cases h with
  | removed hunlink hrest hpart =>
    obtain ⟨hnames, hfiles, -⟩ := Disk.unlink_eq_some hunlink
    refine ⟨?_, hfiles⟩
    rw [hnames, Function.update_of_ne]
    rintro rfl
    exact hout (hpart rfl)
  | stored hrename =>
    obtain ⟨i, -, hnames, hfiles, -⟩ := Disk.rename_eq_some hrename
    refine ⟨?_, hfiles⟩
    rw [hnames, Function.update_of_ne (by decide), Function.update_of_ne (by decide)]
  | rests | measured | responded | read | ended => exact ⟨rfl, rfl⟩
  | restarted | opened | appended | published => exact absurd trivial hout

theorem Expects.congr {d d' : Disk FileName} (hx : Expects d stage)
    (hname : d'.names .partialFile = d.names .partialFile) (hfiles : d'.files = d.files) :
    Expects d' stage := by
  cases stage with
  | request | opening => simpa only [Expects, onDisk, Disk.read, hname, hfiles] using hx
  | reading | streaming | publish => simpa only [Expects, hname, hfiles] using hx
  | _ => trivial

/-- No two calls are pulling. -/
def Exclusive (s : Downloads) : Prop := ∀ p q, Pulling (s.calls p) → Pulling (s.calls q) → p = q

def Informed (s : Downloads) : Prop := ∀ p, Expects s.shared.disk (s.calls p)

variable {s s' : Downloads} {l : Nat × Event}

/-- Where no two calls are pulling, what each takes for granted stays true. -/
theorem informed_step (hi : Informed s) (hx : Exclusive s) (h : DownloadStep K m s l s') :
    Informed s' := by
  obtain ⟨p, e⟩ := l
  obtain ⟨g, stage, hcall, rfl⟩ := downloadStep_iff.mp h
  have heffect := callStep_effect hcall
  intro q
  show Expects g.disk (Function.update s.calls p stage q)
  by_cases hq : q = p
  · subst hq
    rw [Function.update_self]
    exact heffect.expects (hi q)
  · rw [Function.update_of_ne hq]
    by_cases hpull : Pulling (s.calls q)
    · have hout : ¬ Pulling (s.calls p) := fun hp => hq (hx q p hpull hp)
      obtain ⟨hname, hfiles⟩ := heffect.keeps_partial hout
      exact (hi q).congr hname hfiles
    · exact (resting_of_not_pulling hpull).expects

theorem publishesOwn_of_exclusive (hi : Informed s) (hx : Exclusive s) : PublishesOwn s l := by
  intro hashed hstage _ file hname
  have hp := hi l.1
  rw [hstage] at hp
  obtain ⟨file', hname', hcontent⟩ := hp
  rw [hname] at hname'
  obtain rfl := Option.some.inj hname'
  refine ⟨hcontent, fun q hq => ?_⟩
  -- whoever has a file open is pulling, and only the publishing call is
  have hpull : Pulling (s.calls q) := by
    by_contra hout
    rw [(resting_of_not_pulling hout).opened] at hq
    cases hq
  have heq : q = l.1 := hx q l.1 hpull (by rw [hstage]; trivial)
  rw [heq, hstage] at hq
  cases hq

/-- Calls that never pull at the same time publish only their own downloads. -/
theorem exclusive_publishesOwn {shared : Shared} {hist : List (Nat × Event)}
    (hx : Runs.Throughout (DownloadStep K m) (Downloads.begin shared) (fun _ s => Exclusive s) hist) :
    Runs.Along (DownloadStep K m) (Downloads.begin shared) PublishesOwn hist := by
  intro past l rest u heq hu
  have hpast : Runs.Along (DownloadStep K m) (Downloads.begin shared) (fun v _ => Exclusive v) past := by
    intro before l' after v hsplit hv
    refine hx before (l' :: after ++ l :: rest) v ?_ hv
    rw [heq, hsplit, List.append_assoc]
  have hi : Informed u := hu.invariant_along Informed (fun q => (show Expects shared.disk .idle from trivial))
    (fun _ _ _ hv hex hstep => informed_step hv hex hstep) hpast
  exact publishesOwn_of_exclusive hi (hx past (l :: rest) u heq hu)

/-- A run in which one call takes every step. -/
theorem alone_exclusive {shared : Shared} {hist : List (Nat × Event)} {p : Nat}
    (hp : ∀ l ∈ hist, l.1 = p) :
    Runs.Throughout (DownloadStep K m) (Downloads.begin shared) (fun _ s => Exclusive s) hist := by
  intro past rest u heq hu
  have hidle : ∀ q, q ≠ p → u.calls q = .idle := by
    have hpast : Runs.Along (DownloadStep K m) (Downloads.begin shared) (fun _ l => l.1 = p) past := by
      intro before l after v hsplit _
      exact hp l (by simp [heq, hsplit])
    refine hu.invariant_along (fun v => ∀ q, q ≠ p → v.calls q = .idle) (fun _ _ => rfl) ?_ hpast
    intro v l v' hv hl hstep q hq
    obtain ⟨g, stage, -, rfl⟩ := downloadStep_iff.mp hstep
    have hne : q ≠ l.1 := fun h => hq (h.trans hl)
    exact (Function.update_of_ne hne _ _).trans (hv q hq)
  have honly : ∀ q, Pulling (u.calls q) → q = p := by
    intro q hq
    by_contra hne
    rw [hidle q hne] at hq
    exact hq
  intro q q' hq hq'
  rw [honly q hq, honly q' hq']

/-! ## One download, and two at once -/

/-- Run the labels. -/
def play (K : Primitives) (m : ModelManifest) : Downloads → List (Nat × Event) → Option Downloads
  | s, [] => some s
  | s, l :: ls => (s.advance K m l).bind (fun s' => play K m s' ls)

theorem play_steps {hist : List (Nat × Event)} {t : Downloads} (h : play K m s hist = some t) :
    Runs.Steps (DownloadStep K m) s hist t := by
  induction hist generalizing s with
  | nil =>
    obtain rfl := Option.some.inj h
    exact .nil
  | cons l hist ih =>
    obtain ⟨s', hstep, hrest⟩ := Option.bind_eq_some_iff.mp h
    exact (ih hrest).cons hstep

/-- A mirror that has the model answers with it, with the range asked for, or not at all. -/
def HonestMirror (content : List UInt8) (s : Downloads) (l : Nat × Event) : Prop :=
  ∀ left resumeFrom r, s.calls l.1 = .request left resumeFrom → l.2 = .respond r →
    r = .full content ∨ r = .range (content.drop resumeFrom) ∨ r = .refused

end

/-! ## Runs of whole calls -/

/-- Look up, measure the partial file and ask the mirror, which answers with the whole content. -/
def askFor (content : List UInt8) (p : Nat) : List (Nat × Event) :=
  [(p, .step), (p, .step), (p, .step), (p, .step), (p, .respond (.full content)), (p, .step)]

/-- From the end of the stream to the slot. -/
def settle (p : Nat) : List (Nat × Event) :=
  [(p, .step), (p, .step), (p, .step), (p, .step), (p, .gc .kept), (p, .step), (p, .step)]

section

variable {K : Primitives} {m : ModelManifest} {s : Downloads} {p : Nat} {content : List UInt8} {url : String}
  {rest : List (Nat × Event)}

/-- The operations of one call with no other in between. -/
def callRun (K : Primitives) (m : ModelManifest) :
    Shared × Stage → List Event → Option (Shared × Stage)
  | r, [] => some r
  | r, e :: es => (callStep K m r.1 r.2 e).bind (fun r' => callRun K m r' es)

/-- What a call does alone, it does among calls that wait. -/
theorem play_own {es : List Event} {r : Shared × Stage}
    (h : callRun K m (s.shared, s.calls p) es = some r) :
    play K m s (es.map (Prod.mk p) ++ rest) = play K m ⟨r.1, Function.update s.calls p r.2⟩ rest := by
  induction es generalizing s with
  | nil =>
    obtain rfl := Option.some.inj h
    rw [Function.update_eq_self]
    rfl
  | cons e es ih =>
    obtain ⟨r', hcall, hrun⟩ := Option.bind_eq_some_iff.mp h
    have hadvance : s.advance K m (p, e) = some ⟨r'.1, Function.update s.calls p r'.2⟩ := by
      rw [Downloads.advance, hcall, Option.map_some]
    have hnext : callRun K m (r'.1, Function.update s.calls p r'.2 p) es = some r := by
      rw [Function.update_self]
      exact hrun
    rw [List.map_cons, List.cons_append, play, hadvance, Option.bind_some, ih hnext,
      Function.update_idem]

/-- A call that finds nothing cached and nothing begun opens the partial file from the start. -/
theorem play_askFor (hidle : s.calls p = .idle) (hindex : s.shared.indexed = false)
    (hnew : onDisk s.shared.disk = 0) (hurl : m.mirrors = [url]) (hsize : 0 < m.sizeBytes.val) :
    play K m s (askFor content p ++ rest) =
      play K m ⟨⟨(s.shared.disk.openAppend .partialFile).1, false⟩, Function.update s.calls p
        (.streaming [] (s.shared.disk.openAppend .partialFile).2 [] 0 content)⟩ rest := by
  have hrun : callRun K m (s.shared, s.calls p)
      [.step, .step, .step, .step, .respond (.full content), .step] =
        some (⟨(s.shared.disk.openAppend .partialFile).1, false⟩,
          .streaming [] (s.shared.disk.openAppend .partialFile).2 [] 0 content) := by
    simp [callRun, callStep, lookupStep, pullStep, respondStep, hidle, hindex, hurl, hnew,
      Nat.not_le.mpr hsize]
  exact play_own hrun

theorem play_chunk {left : List String} {file : Nat}
    (hstage : s.calls p = .streaming left file [] 0 content)
    (hlen : content.length = m.sizeBytes.val) (hsome : content ≠ []) :
    play K m s ((p, .chunk content.length) :: rest) =
      play K m ⟨⟨s.shared.disk.append file content, s.shared.indexed⟩, Function.update s.calls p
        (.streaming left file content content.length [])⟩ rest := by
  have hlength : content.length ≠ 0 := fun h => hsome (List.length_eq_zero_iff.mp h)
  have hfits : ¬ m.sizeBytes.val < content.length := by omega
  have hrun : callRun K m (s.shared, s.calls p) [.chunk content.length] =
      some (⟨s.shared.disk.append file content, s.shared.indexed⟩,
        .streaming left file content content.length []) := by
    simp only [callRun, callStep, chunkStep, hstage, hlength, lt_irrefl, or_self, if_false,
      List.take_length, hfits, List.nil_append, Nat.zero_add, List.drop_length, Option.bind_some]
  exact play_own hrun

/-- A stream that ended with the right bytes is staged and stored, whatever is in the file by then. -/
theorem play_settle {left : List String} {file i : Nat} {d₁ d₂ : Disk FileName}
    (hstage : s.calls p = .streaming left file content m.sizeBytes.val [])
    (hdigest : K.sha256 content = m.sha256)
    (hpublish : s.shared.disk.rename .partialFile .staging = some d₁)
    (hstaged : d₁.names .staging = some i) (hvalid : validates m (some (d₁.files i)) = true)
    (hstore : d₁.rename .staging .slot = some d₂) :
    play K m s (settle p ++ rest) =
      play K m ⟨⟨d₂, true⟩, Function.update s.calls p .done⟩ rest := by
  have hread : d₁.read .staging = some (d₁.files i) := by
    rw [Disk.read, hstaged, Option.map_some]
  have hend : callStep K m s.shared (.streaming left file content m.sizeBytes.val []) .step =
      some (s.shared, .publish content) := by
    simp only [callStep, lookupStep, pullStep, endStep, Option.none_or, Option.some_or, ne_eq,
      not_true_eq_false, if_false, hdigest]
  have hmove : callStep K m s.shared (.publish content) .step =
      some (⟨d₁, s.shared.indexed⟩, .checkStaged) := by
    simp only [callStep, lookupStep, pullStep, endStep, hpublish, Option.none_or, Option.some_or]
  have hcheck : callStep K m ⟨d₁, s.shared.indexed⟩ .checkStaged .step =
      some (⟨d₁, s.shared.indexed⟩, .measureStaged) := by
    simp only [callStep, lookupStep, pullStep, endStep, insertStep, hread, hvalid, if_true,
      Option.none_or]
  have hmeasure : callStep K m ⟨d₁, s.shared.indexed⟩ .measureStaged .step =
      some (⟨d₁, s.shared.indexed⟩, .collect) := by
    simp only [callStep, lookupStep, pullStep, endStep, insertStep, hread, Option.isSome_some,
      if_true, Option.none_or]
  have hkeep : callStep K m ⟨d₁, s.shared.indexed⟩ .collect (.gc .kept) =
      some (⟨d₁, s.shared.indexed⟩, .store) := rfl
  have hinsert : callStep K m ⟨d₁, s.shared.indexed⟩ .store .step =
      some (⟨d₂, s.shared.indexed⟩, .index) := by
    simp only [callStep, lookupStep, pullStep, endStep, insertStep, hstore, Option.none_or]
  have hindex : callStep K m ⟨d₂, s.shared.indexed⟩ .index .step = some (⟨d₂, true⟩, .done) := rfl
  have hrun : callRun K m (s.shared, s.calls p)
      [.step, .step, .step, .step, .gc .kept, .step, .step] = some (⟨d₂, true⟩, .done) := by
    simp only [callRun, hstage, hend, hmove, hcheck, hmeasure, hkeep, hinsert, hindex,
      Option.bind_some]
  exact play_own hrun

/-- A complete partial file is renamed into the slot. -/
theorem play_settled {left : List String} {file : Nat}
    (hstage : s.calls p = .streaming left file content m.sizeBytes.val [])
    (hdigest : K.sha256 content = m.sha256) (hname : s.shared.disk.names .partialFile = some file)
    (hvalid : validates m (some (s.shared.disk.files file)) = true) :
    ∃ t, play K m s (settle p) = some t ∧ t.calls p = .done ∧
      t.shared.disk.read .slot = some (s.shared.disk.files file) := by
  obtain ⟨d₁, h₁⟩ := Disk.rename_of_some hname .staging
  obtain ⟨i, hi, hnames₁, hfiles₁, -⟩ := Disk.rename_eq_some h₁
  rw [hname] at hi
  obtain rfl := Option.some.inj hi
  have hstaged : d₁.names .staging = some file := by
    rw [hnames₁, Function.update_of_ne (by decide), Function.update_self]
  obtain ⟨d₂, h₂⟩ := Disk.rename_of_some hstaged .slot
  obtain ⟨j, hj, hnames₂, hfiles₂, -⟩ := Disk.rename_eq_some h₂
  rw [hstaged] at hj
  obtain rfl := Option.some.inj hj
  have hplay : play K m s (settle p ++ []) = _ :=
    play_settle hstage hdigest h₁ hstaged (by rw [hfiles₁]; exact hvalid) h₂
  rw [List.append_nil] at hplay
  refine ⟨_, hplay, Function.update_self _ _ _, ?_⟩
  show d₂.read .slot = _
  rw [Disk.read, hnames₂, Function.update_of_ne (by decide), Function.update_self, hfiles₂, hfiles₁,
    Option.map_some]

/-! ### One download, and two at once -/

def soloDownload (content : List UInt8) : List (Nat × Event) :=
  askFor content 0 ++ ((0, .chunk content.length) :: settle 0)

/-- Two calls open the same partial file, and each appends the whole content to it. -/
def twoDownloads (content : List UInt8) : List (Nat × Event) :=
  askFor content 0 ++ (askFor content 1 ++
    ((0, .chunk content.length) :: (1, .chunk content.length) :: settle 0))

/-- A disk whose only file is a new, empty partial file. -/
def newPartial : Disk FileName := (Disk.blank.openAppend .partialFile).1

/-- The calls after another one has opened the new partial file. -/
def asked (calls : Nat → Stage) (p : Nat) (content : List UInt8) : Downloads :=
  ⟨⟨newPartial, false⟩, Function.update calls p (.streaming [] 0 [] 0 content)⟩

/-- The downloads after a call has appended all it was sent. -/
def received (s : Downloads) (p : Nat) (content : List UInt8) : Downloads :=
  ⟨⟨s.shared.disk.append 0 content, s.shared.indexed⟩,
    Function.update s.calls p (.streaming [] 0 content content.length [])⟩

theorem play_first (hurl : m.mirrors = [url]) (hsize : 0 < m.sizeBytes.val) :
    play K m (.begin ⟨.blank, false⟩) (askFor content 0 ++ rest) =
      play K m (asked (fun _ => .idle) 0 content) rest :=
  play_askFor rfl rfl rfl hurl hsize

theorem play_second (hurl : m.mirrors = [url]) (hsize : 0 < m.sizeBytes.val) :
    play K m (asked (fun _ => .idle) 0 content) (askFor content 1 ++ rest) =
      play K m (asked (asked (fun _ => .idle) 0 content).calls 1 content) rest :=
  play_askFor rfl rfl rfl hurl hsize

theorem play_received (hstage : s.calls p = .streaming [] 0 [] 0 content)
    (hlen : content.length = m.sizeBytes.val) (hsome : content ≠ []) :
    play K m s ((p, .chunk content.length) :: rest) = play K m (received s p content) rest :=
  play_chunk hstage hlen hsome

/-- One call fills the slot with the content. -/
theorem solo_play (hurl : m.mirrors = [url]) (hlen : content.length = m.sizeBytes.val)
    (hsome : content ≠ []) (hdigest : K.sha256 content = m.sha256)
    (hvalid : validates m (some content) = true) :
    ∃ t, play K m (.begin ⟨.blank, false⟩) (soloDownload content) = some t ∧ t.calls 0 = .done ∧
      t.shared.disk.read .slot = some content := by
  have hpos : 0 < m.sizeBytes.val := by
    rw [← hlen]
    exact List.length_pos_of_ne_nil hsome
  let s := received (asked (fun _ => .idle) 0 content) 0 content
  have hstage : s.calls 0 = .streaming [] 0 content m.sizeBytes.val [] := by
    rw [← hlen]
    rfl
  have hfile : s.shared.disk.files 0 = content := Disk.append_files_self newPartial 0 content
  obtain ⟨t, ht, hdone, hslot⟩ := play_settled hstage hdigest rfl (by rw [hfile]; exact hvalid)
  rw [hfile] at hslot
  refine ⟨t, ?_, hdone, hslot⟩
  rw [soloDownload, play_first hurl hpos, play_received rfl hlen hsome]
  exact ht

/-- Two calls that overlap leave the content twice over in the slot. -/
theorem two_play (hurl : m.mirrors = [url]) (hlen : content.length = m.sizeBytes.val)
    (hsome : content ≠ []) (hdigest : K.sha256 content = m.sha256)
    (hvalid : validates m (some (content ++ content)) = true) :
    ∃ t, play K m (.begin ⟨.blank, false⟩) (twoDownloads content) = some t ∧ t.calls 0 = .done ∧
      t.shared.disk.read .slot = some (content ++ content) := by
  have hpos : 0 < m.sizeBytes.val := by
    rw [← hlen]
    exact List.length_pos_of_ne_nil hsome
  let both := asked (asked (fun _ => .idle) 0 content).calls 1 content
  let s := received (received both 0 content) 1 content
  have hstage : s.calls 0 = .streaming [] 0 content m.sizeBytes.val [] := by
    rw [← hlen]
    rfl
  have hfirst : (received both 0 content).shared.disk.files 0 = content :=
    Disk.append_files_self newPartial 0 content
  have hfile : s.shared.disk.files 0 = content ++ content := by
    refine (Disk.append_files_self (received both 0 content).shared.disk 0 content).trans ?_
    rw [hfirst]
  obtain ⟨t, ht, hdone, hslot⟩ := play_settled hstage hdigest rfl (by rw [hfile]; exact hvalid)
  rw [hfile] at hslot
  refine ⟨t, ?_, hdone, hslot⟩
  rw [twoDownloads, play_first hurl hpos, play_second hurl hpos, play_received rfl hlen hsome,
    play_received rfl hlen hsome]
  exact ht

end

/-- A bare GGUF file, to be had from one mirror. -/
def bareManifest : ModelManifest where
  mirrors := ["https://mirror"]
  sha256 := toyPrimitives.sha256 bareGguf
  sizeBytes := 24
  quant := .f16

theorem blank_clean (K : Primitives) (m : ModelManifest) : CleanCache K m .blank where
  digest := fun _ _ _ h => by cases h
  apart := fun _ _ _ h => by cases h

/-- A single download, every label of which is call 0's, keeps the slot sound and fills it. -/
theorem slot_sound_solo : ∃ t,
    Runs.Steps (DownloadStep toyPrimitives bareManifest) (.begin ⟨.blank, false⟩)
        (soloDownload bareGguf) t ∧ t.shared.disk.read .slot = some bareGguf ∧
      Runs.Throughout (DownloadStep toyPrimitives bareManifest) (.begin ⟨.blank, false⟩)
        (fun _ s => SlotSound toyPrimitives bareManifest s) (soloDownload bareGguf) := by
  obtain ⟨t, hplay, -, hslot⟩ : ∃ t, play toyPrimitives bareManifest (.begin ⟨.blank, false⟩)
      (soloDownload bareGguf) = some t ∧ t.calls 0 = .done ∧ t.shared.disk.read .slot = some bareGguf :=
    solo_play rfl (by decide) (by decide) rfl (by decide)
  have halone : ∀ l ∈ soloDownload bareGguf, l.1 = 0 := by decide
  exact ⟨t, play_steps hplay, hslot,
    slot_sound_throughout (blank_clean _ _) (exclusive_publishesOwn (alone_exclusive halone))⟩

set_option maxRecDepth 4000 in
theorem doubled_digest : toyPrimitives.sha256 (bareGguf ++ bareGguf) ≠ toyPrimitives.sha256 bareGguf := by
  decide

/-- Against honest mirrors the slot ends up with the model twice over. -/
theorem two_downloads_doubled : ∃ t,
    Runs.Steps (DownloadStep toyPrimitives bareManifest) (.begin ⟨.blank, false⟩)
        (twoDownloads bareGguf) t ∧
      Runs.Along (DownloadStep toyPrimitives bareManifest) (.begin ⟨.blank, false⟩)
        (HonestMirror bareGguf) (twoDownloads bareGguf) ∧
      t.calls 0 = .done ∧ t.shared.disk.read .slot = some (bareGguf ++ bareGguf) ∧
      ¬ SlotSound toyPrimitives bareManifest t := by
  obtain ⟨t, hplay, hdone, hslot⟩ : ∃ t, play toyPrimitives bareManifest (.begin ⟨.blank, false⟩)
      (twoDownloads bareGguf) = some t ∧ t.calls 0 = .done ∧
        t.shared.disk.read .slot = some (bareGguf ++ bareGguf) :=
    two_play rfl (by decide) (by decide) rfl (by decide)
  refine ⟨t, play_steps hplay, ?_, hdone, hslot, fun hsound => ?_⟩
  · intro past l rest u heq _ left resumeFrom r _ hr
    have hall : ∀ l ∈ twoDownloads bareGguf, l.2 = .respond r → r = .full bareGguf := by
      simp only [twoDownloads, askFor, settle, List.cons_append, List.nil_append, List.forall_mem_cons]
      simp [eq_comm]
    exact .inl (hall l (by simp [heq]) hr)
  · exact doubled_digest (hsound (bareGguf ++ bareGguf) hslot)

end Arknet.Laws
