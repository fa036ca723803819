import Arknet.ModelManager.Puller

/-!
One download at a time. What is hashed is what is in the file, whatever the mirrors answer, so only the
right bytes are published. That they are published when some mirror is honest depends on what the mirror
before it left behind.
-/

namespace Arknet.Laws

open Arknet.Chain Arknet.ModelManager

section

variable (K : Primitives) (m : ModelManifest)

/-- The size and the digest of the manifest. -/
structure Genuine (bytes : List UInt8) : Prop where
  size : bytes.length = m.sizeBytes.val
  digest : K.sha256 bytes = m.sha256

/-- The hashed bytes and the counted bytes are the bytes of the file. -/
structure Streamed.Synced (s : Streamed) : Prop where
  hashed : s.hashed = s.partialFile
  counted : s.bytesWritten = s.partialFile.length

end

variable {K : Primitives} {m : ModelManifest}

/-! ## Integrity -/

theorem streamChunks_synced {broken : Bool} {chunks : List (List UInt8)} {s s' : Streamed}
    {file : List UInt8} (h : Streamed.Synced s) (hs : streamChunks m broken chunks s = (file, .ok s')) :
    Streamed.Synced s' := by
  induction chunks generalizing s with
  | nil =>
    simp only [streamChunks] at hs
    split at hs
    · cases hs
    · cases hs
      exact h
  | cons chunk chunks ih =>
    simp only [streamChunks] at hs
    split at hs
    · cases hs
    · refine ih ⟨?_, ?_⟩ hs
      · simp only [h.hashed]
      · simp only [h.counted, List.length_append]

theorem finishStream_ok {s : Streamed} {file : File} (h : Streamed.Synced s)
    (hs : finishStream K m s = (file, .ok ())) : ∃ bytes, file = some bytes ∧ Genuine K m bytes := by
  unfold finishStream at hs
  split at hs
  · cases hs
  · rename_i hsize
    simp only at hs
    split at hs
    · cases hs
    · rename_i hdigest
      cases hs
      refine ⟨s.partialFile, rfl, ?_, ?_⟩
      · rw [← h.counted]
        exact not_not.mp hsize
      · rw [← h.hashed]
        exact not_not.mp hdigest

theorem len_eq (f : File) : f.len = (f.getD []).length := by
  cases f <;> rfl

/-- The bytes hashed before the stream are the bytes that are in the file. -/
theorem receive_leftover (leftover : File) (chunks : List (List UInt8)) (broken : Bool) :
    receive K m leftover.len chunks broken leftover =
      endStream K m (streamChunks m broken chunks ⟨leftover.getD [], leftover.getD [], leftover.len⟩) := by
  have hhashed : (if 0 < leftover.len then leftover.getD [] else []) = leftover.getD [] := by
    split
    · rfl
    · rename_i hlen
      rw [len_eq, Nat.not_lt, Nat.le_zero, List.length_eq_zero_iff] at hlen
      rw [hlen]
  unfold receive
  simp only
  rw [if_neg (fun h => h.2 (len_eq leftover).symm), hhashed]

theorem receive_ok {leftover file : File} {chunks : List (List UInt8)} {broken : Bool}
    (h : receive K m leftover.len chunks broken leftover = (file, .ok ())) :
    ∃ bytes, file = some bytes ∧ Genuine K m bytes := by
  rw [receive_leftover] at h
  cases hstream : streamChunks m broken chunks ⟨leftover.getD [], leftover.getD [], leftover.len⟩ with
  | mk written result =>
    rw [hstream] at h
    cases result with
    | error e => cases h
    | ok s => exact finishStream_ok (streamChunks_synced ⟨rfl, len_eq leftover⟩ hstream) h

theorem remove_ok {f g : File} (h : f.remove = .ok g) : g = none := by
  cases f with
  | none => cases h
  | some bytes =>
    cases h
    rfl

theorem handleResponse_ok {url : String} {leftover file : File} {answer : Answer}
    (h : handleResponse K m url leftover.len leftover answer = (file, .ok ())) :
    ∃ bytes, file = some bytes ∧ Genuine K m bytes := by
  cases answer with
  | unreachable => cases h
  | response status chunks broken =>
    simp only [handleResponse] at h
    split at h
    · cases h
    · split at h
      · split at h
        · cases h
        · rename_i f hremove
          obtain rfl := remove_ok hremove
          have hfresh : receive K m (File.len none) chunks broken none = (file, .ok ()) := h
          exact receive_ok hfresh
      · exact receive_ok h

theorem pullFromMirror_ok {url : String} {answer : Nat → Answer} {partialFile file : File}
    (h : pullFromMirror K m url answer partialFile = (file, .ok ())) :
    ∃ bytes, file = some bytes ∧ Genuine K m bytes := by
  unfold pullFromMirror at h
  split at h
  · cases h
  · exact handleResponse_ok h

/-- Only a pull that returns touches the destination, and it leaves the right bytes there. -/
theorem pullFrom_dest (net : Network) (modelRef : String) (urls : List String) (idx : Nat)
    (lastError : Option ModelError) (files : PullFiles) :
    match pullFrom K m net modelRef urls idx lastError files with
    | (files', .ok ()) => ∃ bytes, files'.dest = some bytes ∧ Genuine K m bytes
    | (files', .error _) => files'.dest = files.dest := by
  induction urls generalizing idx lastError files with
  | nil => rfl
  | cons url urls ih =>
    unfold pullFrom
    cases hmirror : pullFromMirror K m url (net idx) files.partialFile with
    | mk file result =>
      cases result with
      | error e => exact ih (idx + 1) (some e) ⟨file, files.dest⟩
      | ok u =>
        obtain ⟨bytes, rfl, hgenuine⟩ := pullFromMirror_ok hmirror
        exact ⟨bytes, rfl, hgenuine⟩

/-- A pull that returns leaves the right bytes at the destination, one that fails leaves the destination
alone, whatever was in the partial file and whatever the mirrors answer. -/
theorem download_integrity (K : Primitives) (m : ModelManifest) (net : Network) (modelRef : String)
    (files : PullFiles) :
    (∀ files', pull K m net modelRef files = (files', .ok ()) →
      ∃ bytes, files'.dest = some bytes ∧ bytes.length = m.sizeBytes.val ∧ K.sha256 bytes = m.sha256) ∧
    ∀ files' e, pull K m net modelRef files = (files', .error e) → files'.dest = files.dest := by
  have hdest := pullFrom_dest (K := K) (m := m) net modelRef m.mirrors 0 none files
  constructor
  · intro files' h
    rw [pull] at h
    rw [h] at hdest
    obtain ⟨bytes, hbytes, hgenuine⟩ := hdest
    exact ⟨bytes, hbytes, hgenuine.size, hgenuine.digest⟩
  · intro files' e h
    rw [pull] at h
    rw [h] at hdest
    exact hdest

/-- Two bytes at two mirrors. -/
def toyManifest : ModelManifest := ⟨["a", "b"], toyPrimitives.sha256 [1, 2], 2, .f16⟩

/-- The first mirror breaks off after a byte; the second sends the byte that is missing. -/
def relayNetwork : Network
  | 0, _ => .response 200 [[1]] true
  | _, resumeFrom => .response 206 [[1, 2].drop resumeFrom] false

theorem download_integrity_relay :
    (∃ bytes, some [1, 2] = some bytes ∧ bytes.length = 2 ∧
      toyPrimitives.sha256 bytes = toyManifest.sha256) ∧
    (⟨none, none⟩ : PullFiles).dest = none :=
  ⟨(download_integrity toyPrimitives toyManifest relayNetwork "toy" ⟨none, none⟩).1 ⟨none, some [1, 2]⟩ rfl,
    (download_integrity toyPrimitives toyManifest (fun _ _ => .unreachable) "toy" ⟨none, none⟩).2
      ⟨none, none⟩ .http rfl⟩

/-! ## Availability -/

section

variable (K : Primitives) (m : ModelManifest) (body : List UInt8)

/-- A mirror that sends the whole body, or the rest of it when it is asked for a range. -/
def Honest (answer : Nat → Answer) : Prop :=
  ∀ resumeFrom < m.sizeBytes.val, ∃ chunks,
    (answer resumeFrom = .response 200 chunks false ∧ chunks.flatten = body) ∨
      (answer resumeFrom = .response 206 chunks false ∧ chunks.flatten = body.drop resumeFrom)

/-- The mirror completes what is in the partial file: there is nothing to resume, it ignores the range, or
the rest of the body brings the leftover to the digest. -/
def Completes (answer : Nat → Answer) (leftover : File) : Prop :=
  leftover.len = 0 ∨ m.sizeBytes.val ≤ leftover.len ∨
    (∃ chunks broken, answer leftover.len = .response 200 chunks broken) ∨
    K.sha256 (leftover.getD [] ++ body.drop leftover.len) = m.sha256

end

variable {body : List UInt8}

/-- A stream that fits is hashed, written and counted to its end. -/
theorem streamChunks_fits (broken : Bool) (chunks : List (List UInt8)) (s : Streamed)
    (h : s.bytesWritten + chunks.flatten.length ≤ m.sizeBytes.val) :
    streamChunks m broken chunks s = (s.partialFile ++ chunks.flatten,
      if broken then .error (.download .stream)
      else .ok ⟨s.partialFile ++ chunks.flatten, s.hashed ++ chunks.flatten,
        s.bytesWritten + chunks.flatten.length⟩) := by
  induction chunks generalizing s with
  | nil => simp [streamChunks]
  | cons chunk chunks ih =>
    rw [List.flatten_cons, List.length_append] at h
    rw [streamChunks, if_neg (by simp only; omega), ih _ (by simp only; omega)]
    simp only [List.flatten_cons, List.append_assoc, List.length_append, Nat.add_assoc]

/-- What becomes of a stream of the expected length. -/
theorem receive_full {leftover : File} {chunks : List (List UInt8)}
    (h : leftover.len + chunks.flatten.length = m.sizeBytes.val) :
    receive K m leftover.len chunks false leftover =
      if K.sha256 (leftover.getD [] ++ chunks.flatten) = m.sha256 then
        (some (leftover.getD [] ++ chunks.flatten), .ok ())
      else (none, .error (.hashMismatch m.sha256.hexEncode
        (K.sha256 (leftover.getD [] ++ chunks.flatten)).hexEncode)) := by
  rw [receive_leftover, streamChunks_fits _ _ _ h.le]
  simp only [Bool.false_eq_true, ↓reduceIte, endStream, finishStream, h]
  simp only [ne_eq, not_true_eq_false, ↓reduceIte, ite_not]

/-- A stream that ends early leaves what it sent. -/
theorem receive_short {leftover : File} {chunks : List (List UInt8)}
    (h : leftover.len + chunks.flatten.length < m.sizeBytes.val) :
    ∃ e, receive K m leftover.len chunks false leftover =
      (some (leftover.getD [] ++ chunks.flatten), .error e) := by
  rw [receive_leftover, streamChunks_fits _ _ _ h.le]
  simp only [Bool.false_eq_true, ↓reduceIte, endStream, finishStream]
  rw [if_pos (by omega)]
  exact ⟨_, rfl⟩

/-! ## One mirror -/

theorem dropStale_ok (hpos : 0 < m.sizeBytes.val) (leftover : File) :
    ∃ fresh, dropStale m leftover = .ok fresh ∧ fresh.len < m.sizeBytes.val ∧
      (fresh = leftover ∨ fresh = none ∧ m.sizeBytes.val ≤ leftover.len) := by
  unfold dropStale
  split
  · rename_i hstale
    cases leftover with
    | none => exact absurd hstale (Nat.not_le.mpr hpos)
    | some bytes => exact ⟨none, rfl, hpos, .inr ⟨rfl, hstale⟩⟩
  · rename_i hfits
    exact ⟨leftover, rfl, Nat.lt_of_not_le hfits, .inl rfl⟩

/-- A whole body starts over, whatever there was. -/
theorem handleResponse_whole (url : String) (fresh : File) (chunks : List (List UInt8)) (broken : Bool) :
    handleResponse K m url fresh.len fresh (.response 200 chunks broken) =
      receive K m (File.len none) chunks broken none := by
  simp only [handleResponse, not_true_eq_false, false_and, ↓reduceIte, true_and]
  split
  · rename_i hlen
    cases fresh with
    | none => cases hlen
    | some bytes => rfl
  · rename_i hlen
    have hempty : fresh.getD [] = [] := by
      apply List.length_eq_zero_iff.mp
      rw [← len_eq]
      omega
    have hzero : fresh.len = 0 := by omega
    rw [receive_leftover, receive_leftover, hempty, hzero]
    rfl

theorem handleResponse_rest (url : String) (fresh : File) (chunks : List (List UInt8)) (broken : Bool) :
    handleResponse K m url fresh.len fresh (.response 206 chunks broken) =
      receive K m fresh.len chunks broken fresh := by
  simp [handleResponse]

variable {answer : Nat → Answer} {leftover : File}

/-- An honest mirror that completes the partial file ends the pull; one that does not removes the file. -/
theorem honest_pull (hpos : 0 < m.sizeBytes.val) (hbody : Genuine K m body) (h : Honest m body answer)
    (url : String) (leftover : File) :
    (Completes K m body answer leftover → ∃ file, pullFromMirror K m url answer leftover = (file, .ok ())) ∧
    (¬ Completes K m body answer leftover →
      ∃ e, pullFromMirror K m url answer leftover = (none, .error e)) := by
  obtain ⟨fresh, hfresh, hlt, hfrom⟩ := dropStale_ok hpos leftover
  have hpull : pullFromMirror K m url answer leftover =
      handleResponse K m url fresh.len fresh (answer fresh.len) := by
    rw [pullFromMirror, hfresh]
  have hstart : fresh.len = 0 → K.sha256 (fresh.getD [] ++ body.drop fresh.len) = m.sha256 := by
    intro hzero
    rw [len_eq, List.length_eq_zero_iff] at hzero
    rw [len_eq, hzero]
    exact hbody.digest
  obtain ⟨chunks, ⟨hanswer, hchunks⟩ | ⟨hanswer, hchunks⟩⟩ := h fresh.len hlt
  · have hfull : (File.len none) + chunks.flatten.length = m.sizeBytes.val := by
      rw [hchunks, hbody.size]
      exact Nat.zero_add _
    have hdone : pullFromMirror K m url answer leftover = (some chunks.flatten, .ok ()) := by
      rw [hpull, hanswer, handleResponse_whole, receive_full hfull]
      exact if_pos (by rw [hchunks]; exact hbody.digest)
    refine ⟨fun _ => ⟨_, hdone⟩, fun hnot => absurd ?_ hnot⟩
    rcases hfrom with rfl | ⟨-, hstale⟩
    · exact .inr (.inr (.inl ⟨chunks, false, hanswer⟩))
    · exact .inr (.inl hstale)
  · have hfull : fresh.len + chunks.flatten.length = m.sizeBytes.val := by
      rw [hchunks, List.length_drop, hbody.size]
      omega
    rw [hpull, hanswer, handleResponse_rest, receive_full hfull, hchunks]
    constructor
    · intro hcompletes
      have hdigest : K.sha256 (fresh.getD [] ++ body.drop fresh.len) = m.sha256 := by
        rcases hfrom with rfl | ⟨rfl, -⟩
        · rcases hcompletes with hzero | hstale | ⟨_, _, hwhole⟩ | hdigest
          · exact hstart hzero
          · exact absurd hlt (Nat.not_lt.mpr hstale)
          · rw [hanswer] at hwhole
            cases hwhole
          · exact hdigest
        · exact hstart rfl
      exact ⟨_, if_pos hdigest⟩
    · intro hnot
      rcases hfrom with rfl | ⟨-, hstale⟩
      · exact ⟨_, if_neg (fun hdigest => hnot (.inr (.inr (.inr hdigest))))⟩
      · exact absurd (.inr (.inl hstale)) hnot

theorem completes_none : Completes K m body answer none := .inl rfl

/-- A mirror can leave any bytes that are too few. -/
theorem cut_pull (hpos : 0 < m.sizeBytes.val) {left : List UInt8} (h : left.length < m.sizeBytes.val)
    (url : String) (leftover : File) :
    ∃ e, pullFromMirror K m url (fun _ => .response 200 [left] false) leftover = (some left, .error e) := by
  obtain ⟨fresh, hfresh, -, -⟩ := dropStale_ok hpos leftover
  have hshort : (File.len none) + ([left].flatten).length < m.sizeBytes.val := by
    rw [List.flatten_singleton]
    exact (Nat.zero_add _).trans_lt h
  obtain ⟨e, he⟩ := receive_short (K := K) hshort
  refine ⟨e, ?_⟩
  rw [pullFromMirror, hfresh]
  simp only
  rw [handleResponse_whole, he]
  simp

theorem unreachable_pull (hpos : 0 < m.sizeBytes.val) (url : String) (leftover : File) :
    ∃ file e, pullFromMirror K m url (fun _ => .unreachable) leftover = (file, .error e) := by
  obtain ⟨fresh, hfresh, -, -⟩ := dropStale_ok hpos leftover
  exact ⟨fresh, .http, by rw [pullFromMirror, hfresh]; rfl⟩

/-! ## All mirrors -/

section

variable (K : Primitives) (m : ModelManifest) (net : Network)

/-- The partial file after `k` mirrors, from position `idx` on. -/
def leftBehind : List String → Nat → File → Nat → File
  | _, _, leftover, 0 => leftover
  | [], _, leftover, _ + 1 => leftover
  | url :: urls, idx, leftover, k + 1 =>
    leftBehind urls (idx + 1) (pullFromMirror K m url (net idx) leftover).1 k

end

variable {net : Network}

theorem leftBehind_succ {urls : List String} {idx k : Nat} {url : String} (h : urls[k]? = some url)
    (leftover : File) :
    leftBehind K m net urls idx leftover (k + 1) =
      (pullFromMirror K m url (net (idx + k)) (leftBehind K m net urls idx leftover k)).1 := by
  induction k generalizing urls idx leftover with
  | zero =>
    cases urls with
    | nil => simp at h
    | cons u urls =>
      obtain rfl : u = url := by simpa using h
      simp [leftBehind]
  | succ k ih =>
    cases urls with
    | nil => simp at h
    | cons u urls =>
      have hurl : urls[k]? = some url := by simpa using h
      have hnext := @ih urls (idx + 1) hurl (pullFromMirror K m u (net idx) leftover).1
      rw [show idx + (k + 1) = idx + 1 + k by omega]
      exact hnext

/-- A pull returns exactly when some mirror ends it. -/
theorem pullFrom_ok_iff (modelRef : String) (urls : List String) (idx : Nat)
    (lastError : Option ModelError) (files : PullFiles) :
    (pullFrom K m net modelRef urls idx lastError files).2 = .ok () ↔
      ∃ k url, urls[k]? = some url ∧ ∃ file, pullFromMirror K m url (net (idx + k))
        (leftBehind K m net urls idx files.partialFile k) = (file, .ok ()) := by
  induction urls generalizing idx lastError files with
  | nil => simp [pullFrom]
  | cons u urls ih =>
    unfold pullFrom
    cases hmirror : pullFromMirror K m u (net idx) files.partialFile with
    | mk file result =>
      cases result with
      | error e =>
        have hrest := ih (idx + 1) (some e) ⟨file, files.dest⟩
        constructor
        · intro hok
          obtain ⟨k, url, hurl, done, hdone⟩ := hrest.mp hok
          refine ⟨k + 1, url, hurl, done, ?_⟩
          rw [leftBehind, hmirror, show idx + (k + 1) = idx + 1 + k by omega]
          exact hdone
        · rintro ⟨k, url, hurl, done, hdone⟩
          cases k with
          | zero =>
            obtain rfl : u = url := by simpa using hurl
            rw [leftBehind, Nat.add_zero, hmirror] at hdone
            cases hdone
          | succ k =>
            refine hrest.mpr ⟨k, url, hurl, done, ?_⟩
            rw [leftBehind, hmirror, show idx + (k + 1) = idx + 1 + k by omega] at hdone
            exact hdone
      | ok u' =>
        obtain ⟨bytes, rfl, -⟩ := pullFromMirror_ok hmirror
        refine iff_of_true rfl ⟨0, u, rfl, some bytes, ?_⟩
        rw [leftBehind]
        exact hmirror

/-- The honest mirror at `i` ends the pull whatever the others do: another honest mirror comes right
before it and leaves nothing, or it is the first and completes what was there, or it completes whatever
can be left. -/
def Assured (K : Primitives) (m : ModelManifest) (body : List UInt8) (honest : Nat → Prop)
    (answers : Network) (prior : File) (i : Nat) : Prop :=
  (∃ j, j + 1 = i ∧ honest j) ∨ (i = 0 ∧ Completes K m body (answers 0) prior) ∨
    ∀ left : List UInt8, Completes K m body (answers i) (some left)

section

variable {honest : Nat → Prop} {answers : Network} {modelRef : String} {files : PullFiles}

theorem pull_of_assured (hpos : 0 < m.sizeBytes.val) (hbody : Genuine K m body)
    (hhonest : ∀ i, honest i → i < m.mirrors.length ∧ Honest m body (answers i))
    (hnet : ∀ i, honest i → net i = answers i) {i : Nat} (hi : honest i)
    (h : Assured K m body honest answers files.partialFile i) :
    (pull K m net modelRef files).2 = .ok () := by
  -- an honest mirror that completes what it finds ends the pull
  have hends : ∀ j, honest j → Completes K m body (answers j)
      (leftBehind K m net m.mirrors 0 files.partialFile j) → (pull K m net modelRef files).2 = .ok () := by
    intro j hj hcompletes
    obtain ⟨hlt, hanswers⟩ := hhonest j hj
    rw [pull, pullFrom_ok_iff]
    refine ⟨j, m.mirrors[j], List.getElem?_eq_getElem hlt, ?_⟩
    rw [Nat.zero_add, hnet j hj]
    exact (honest_pull hpos hbody hanswers _ _).1 hcompletes
  rcases h with ⟨j, rfl, hj⟩ | ⟨rfl, hcompletes⟩ | hall
  · by_cases hprev : Completes K m body (answers j) (leftBehind K m net m.mirrors 0 files.partialFile j)
    · exact hends j hj hprev
    · apply hends (j + 1) hi
      obtain ⟨hlt, hanswers⟩ := hhonest j hj
      rw [leftBehind_succ (List.getElem?_eq_getElem hlt), Nat.zero_add, hnet j hj]
      obtain ⟨e, he⟩ := (honest_pull hpos hbody hanswers m.mirrors[j] _).2 hprev
      rw [he]
      exact completes_none
  · apply hends 0 hi
    rwa [leftBehind]
  · apply hends i hi
    cases leftBehind K m net m.mirrors 0 files.partialFile i with
    | none => exact completes_none
    | some left => exact hall left

open Classical in
/-- Every other mirror right before an honest one leaves the bytes that trip it, and the rest are down. -/
noncomputable def poisoning (honest : Nat → Prop) (answers : Network) (bad : Nat → List UInt8) : Network :=
  fun i => if honest i then answers i
    else if honest (i + 1) then fun _ => .response 200 [bad (i + 1)] false
    else fun _ => .unreachable

theorem poisoning_fails (answers : Network) (hpos : 0 < m.sizeBytes.val) {bad : Nat → List UInt8} {i : Nat}
    (hi : ¬ honest i) (hshort : honest (i + 1) → (bad (i + 1)).length < m.sizeBytes.val) (url : String)
    (leftover : File) :
    ∃ file e, pullFromMirror K m url (poisoning honest answers bad i) leftover = (file, .error e) ∧
      (honest (i + 1) → file = some (bad (i + 1))) := by
  unfold poisoning
  rw [if_neg hi]
  split
  · rename_i hnext
    obtain ⟨e, he⟩ := cut_pull hpos (hshort hnext) url leftover
    exact ⟨_, e, he, fun _ => rfl⟩
  · rename_i hnext
    obtain ⟨file, e, he⟩ := unreachable_pull (K := K) hpos url leftover
    exact ⟨file, e, he, fun h => absurd h hnext⟩

theorem exists_pull_fails (modelRef : String) (files : PullFiles) (hpos : 0 < m.sizeBytes.val)
    (hbody : Genuine K m body)
    (hhonest : ∀ i, honest i → i < m.mirrors.length ∧ Honest m body (answers i))
    (h : ∀ i, honest i → ¬ Assured K m body honest answers files.partialFile i) :
    ∃ net : Network, (∀ i, honest i → net i = answers i) ∧
      (pull K m net modelRef files).2 ≠ .ok () := by
  have hbad : ∀ i, ∃ left : List UInt8, honest i → ¬ Completes K m body (answers i) (some left) := by
    intro i
    by_cases hi : honest i
    · by_contra hnone
      refine h i hi (.inr (.inr (fun left => ?_)))
      by_contra hleft
      exact hnone ⟨left, fun _ => hleft⟩
    · exact ⟨[], fun hyes => absurd hyes hi⟩
  choose bad hbad using hbad
  have hshort : ∀ i, honest i → (bad i).length < m.sizeBytes.val := by
    intro i hi
    by_contra hlong
    exact hbad i hi (.inr (.inl (Nat.le_of_not_lt hlong)))
  refine ⟨poisoning honest answers bad, fun i hi => if_pos hi, fun hok => ?_⟩
  rw [pull, pullFrom_ok_iff] at hok
  obtain ⟨k, url, hurl, file, hdone⟩ := hok
  rw [Nat.zero_add] at hdone
  by_cases hk : honest k
  · -- the honest mirror finds what it does not complete
    have htripped : ¬ Completes K m body (answers k)
        (leftBehind K m (poisoning honest answers bad) m.mirrors 0 files.partialFile k) := by
      cases k with
      | zero =>
        rw [leftBehind]
        exact fun hcompletes => h 0 hk (.inr (.inl ⟨rfl, hcompletes⟩))
      | succ k =>
        have hprev : ¬ honest k := fun hj => h (k + 1) hk (.inl ⟨k, rfl, hj⟩)
        have hlt : k < m.mirrors.length := by
          have := (hhonest (k + 1) hk).1
          omega
        rw [leftBehind_succ (List.getElem?_eq_getElem hlt), Nat.zero_add]
        obtain ⟨left, e, he, hleft⟩ := poisoning_fails (K := K) answers hpos hprev (hshort (k + 1))
          m.mirrors[k]
          (leftBehind K m (poisoning honest answers bad) m.mirrors 0 files.partialFile k)
        rw [he, hleft hk]
        exact hbad (k + 1) hk
    rw [show poisoning honest answers bad k = answers k from if_pos hk] at hdone
    obtain ⟨e, he⟩ := (honest_pull hpos hbody (hhonest k hk).2 url _).2 htripped
    rw [he] at hdone
    cases hdone
  · obtain ⟨left, e, he, -⟩ := poisoning_fails (K := K) answers hpos hk (hshort (k + 1)) url
      (leftBehind K m (poisoning honest answers bad) m.mirrors 0 files.partialFile k)
    rw [he] at hdone
    cases hdone

/-- A pull returns whatever the other mirrors do exactly when some honest mirror is assured: an honest
mirror that honours ranges and comes after a faulty one can be made to resume a leftover that is not its
own, and fails on the digest. -/
theorem download_available_iff (hpos : 0 < m.sizeBytes.val) (hbody : Genuine K m body)
    (hhonest : ∀ i, honest i → i < m.mirrors.length ∧ Honest m body (answers i)) :
    (∀ net : Network, (∀ i, honest i → net i = answers i) → (pull K m net modelRef files).2 = .ok ()) ↔
      ∃ i, honest i ∧ Assured K m body honest answers files.partialFile i := by
  constructor
  · intro h
    by_contra hnone
    obtain ⟨net, hnet, hfails⟩ := exists_pull_fails modelRef files hpos hbody hhonest
      (fun i hi hassured => hnone ⟨i, hi, hassured⟩)
    exact hfails (h net hnet)
  · rintro ⟨i, hi, hassured⟩ net hnet
    exact pull_of_assured hpos hbody hhonest hnet hi hassured

end

/-- A mirror with the right bytes that honours ranges. -/
def rangeMirror (resumeFrom : Nat) : Answer :=
  if resumeFrom = 0 then .response 200 [[1, 2]] false else .response 206 [[1, 2].drop resumeFrom] false

theorem toyManifest_genuine : Genuine toyPrimitives toyManifest [1, 2] := ⟨rfl, rfl⟩

theorem rangeMirror_honest : Honest toyManifest [1, 2] rangeMirror := by
  intro resumeFrom _
  unfold rangeMirror
  split
  · exact ⟨_, .inl ⟨rfl, rfl⟩⟩
  · exact ⟨_, .inr ⟨rfl, List.append_nil _⟩⟩

theorem download_available_iff_first :
    (∀ net : Network, (∀ i, i = 0 → net i = rangeMirror) →
      (pull toyPrimitives toyManifest net "toy" ⟨some [9], none⟩).2 = .ok ()) ↔
    ∃ i, i = 0 ∧ Assured toyPrimitives toyManifest [1, 2] (· = 0) (fun _ => rangeMirror) (some [9]) i :=
  download_available_iff (by decide) toyManifest_genuine
    (fun i hi => ⟨by rw [hi]; decide, rangeMirror_honest⟩)

/-- The first mirror ends after one wrong byte; the second is asked for the rest and sends it. -/
theorem poisoned_resume :
    ¬ ∀ (K : Primitives) (m : ModelManifest) (body : List UInt8) (net : Network) (i : Nat)
      (modelRef : String) (files : PullFiles), 0 < m.sizeBytes.val → Genuine K m body →
      i < m.mirrors.length → Honest m body (net i) → (pull K m net modelRef files).2 = .ok () := by
  intro h
  have hok := h toyPrimitives toyManifest [1, 2]
    (fun i => if i = 0 then fun _ => .response 200 [[9]] false else rangeMirror) 1 "toy" ⟨none, none⟩
    (by decide) toyManifest_genuine (by decide) rangeMirror_honest
  cases hok

end Arknet.Laws
