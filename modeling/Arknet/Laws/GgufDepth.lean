import Arknet.Laws.GgufHeader

/-!
How deep the parser's recursion goes. Every level of nesting costs the twelve bytes of an array header and
nothing else, so the depth is bounded by the size of the input alone.
-/

namespace Arknet.Laws

open Machine Borsh Arknet.ModelManager

/-! ## At most -/

/-- The position is in the buffer, and twelve bytes were read for every level that was reached, after the
counts of the header. -/
structure DepthReader.Paid (s : DepthReader) : Prop where
  within : s.reader.pos ≤ s.reader.buf.length
  paid : s.deepest = 0 ∨ 24 + 12 * s.deepest ≤ s.reader.pos

/-- From a position that pays for the calls that are open and `need` bytes more, the read goes nowhere that
is not paid for; where it succeeds it has taken `gain` bytes. -/
def Affordable {α : Type} (need gain : Nat) (x : DepthRead α) : Prop :=
  ∀ s : DepthReader, DepthReader.Paid s → need + 12 * s.depth ≤ s.reader.pos →
    DepthReader.Paid (x.run s).2 ∧ (x.run s).2.depth = s.depth ∧
      (x.run s).2.reader.buf = s.reader.buf ∧
      ∀ a, (x.run s).1 = .ok a → s.reader.pos + gain ≤ (x.run s).2.reader.pos

section

variable {α β : Type} {x : DepthRead α} {f : α → DepthRead β} {need gain j k : Nat}

theorem depth_bind_ok {s t : DepthReader} {a : α} (h : x.run s = (.ok a, t)) :
    (x >>= f).run s = (f a).run t := by
  change ExceptT.bindCont f (x.run s).1 (x.run s).2 = _
  rw [h]
  rfl

theorem depth_bind_error {s t : DepthReader} {e : GgufError} (h : x.run s = (.error e, t)) :
    (x >>= f).run s = (.error e, t) := by
  change ExceptT.bindCont f (x.run s).1 (x.run s).2 = _
  rw [h]
  rfl

theorem Affordable.pure (a : α) : Affordable need 0 (Pure.pure a : DepthRead α) := fun _ hs _ =>
  ⟨hs, rfl, rfl, fun _ _ => le_refl _⟩

theorem Affordable.fail (e : GgufError) : Affordable need gain (Cursor.fail e : DepthRead α) := fun _ hs _ =>
  ⟨hs, rfl, rfl, fun _ h => by cases h⟩

theorem Affordable.weaken (h : Affordable j k x) (hneed : j ≤ need) (hgain : gain ≤ k) :
    Affordable need gain x := by
  intro s hs hpos
  obtain ⟨hpaid, hdepth, hbuf, htaken⟩ := h s hs (by omega)
  exact ⟨hpaid, hdepth, hbuf, fun a ha => (htaken a ha).trans' (by omega)⟩

theorem Affordable.bind (hx : Affordable need j x) (hf : ∀ a, Affordable (need + j) k (f a)) :
    Affordable need (j + k) (x >>= f) := by
  intro s hs hpos
  obtain ⟨hpaid, hdepth, hbuf, htaken⟩ := hx s hs hpos
  cases hrun : x.run s with
  | mk result t =>
    rw [hrun] at hpaid hdepth hbuf htaken
    cases result with
    | error e =>
      rw [depth_bind_error hrun]
      exact ⟨hpaid, hdepth, hbuf, fun a ha => by cases ha⟩
    | ok a =>
      have hmoved := htaken a rfl
      rw [depth_bind_ok hrun]
      dsimp only at hpaid hdepth hbuf hmoved
      obtain ⟨hpaid', hdepth', hbuf', htaken'⟩ := hf a t hpaid (by omega)
      exact ⟨hpaid', hdepth'.trans hdepth, hbuf'.trans hbuf, fun b hb => (htaken' b hb).trans' (by omega)⟩

theorem Affordable.array (n : Nat) : Affordable need n (Cursor.array n : DepthRead (List UInt8)) := by
  intro s hs hpos
  have hwithin := hs.within
  have hpaid := hs.paid
  have hread := Read.array_run n s.reader
  by_cases hroom : s.reader.buf.length < s.reader.pos + n
  · have hrun : (Cursor.array n : DepthRead (List UInt8)).run s =
        (.error (.truncated n s.reader.pos (s.reader.buf.length - s.reader.pos)), s) := by
      change DepthRead.array n s = _
      rw [DepthRead.array, hread, if_pos hroom]
    rw [hrun]
    exact ⟨hs, rfl, rfl, fun a ha => by cases ha⟩
  · have hrun : (Cursor.array n : DepthRead (List UInt8)).run s =
        (.ok ((s.reader.buf.drop s.reader.pos).take n),
          { s with reader := { s.reader with pos := s.reader.pos + n } }) := by
      change DepthRead.array n s = _
      rw [DepthRead.array, hread, if_neg hroom]
    rw [hrun]
    exact ⟨⟨not_lt.mp hroom, by dsimp only; omega⟩, rfl, rfl, fun a ha => le_refl _⟩

/-- A call that was paid for. -/
theorem Affordable.frame (h : Affordable 24 gain x) : Affordable 36 gain (Cursor.frame x) := by
  intro s hs hpos
  have hwithin := hs.within
  have hpaid := hs.paid
  obtain ⟨hpaid', -, hbuf, htaken⟩ := h { s with depth := s.depth + 1, deepest := max s.deepest (s.depth + 1) }
    ⟨hwithin, by dsimp only; omega⟩ (by dsimp only; omega)
  exact ⟨⟨hpaid'.within, hpaid'.paid⟩, rfl, hbuf, htaken⟩

theorem Affordable.ite {p : Prop} [Decidable p] {y : DepthRead α} (hx : Affordable need gain x)
    (hy : Affordable need gain y) : Affordable need gain (if p then x else y) := by
  split
  · exact hx
  · exact hy

/-- What was taken is not needed. -/
theorem Affordable.forget (hx : Affordable need j x) (hf : ∀ a, Affordable need 0 (f a)) :
    Affordable need 0 (x >>= f) :=
  (hx.bind fun a => (hf a).weaken (Nat.le_add_right _ _) (le_refl _)).weaken (le_refl _) (Nat.zero_le _)

theorem Affordable.u32 : Affordable need 4 (Cursor.u32 : DepthRead U32) :=
  (Affordable.array 4).bind fun _ => .pure _

theorem Affordable.u64 : Affordable need 8 (Cursor.u64 : DepthRead U64) :=
  (Affordable.array 8).bind fun _ => .pure _

theorem Affordable.string : Affordable need 8 (Cursor.string : DepthRead String) := by
  refine Affordable.u64.bind (k := 0) fun len => ?_
  refine Affordable.ite (.fail _) ?_
  refine Affordable.forget (Affordable.array len.val) fun bytes => ?_
  split
  · exact .pure _
  · exact .fail _

theorem Affordable.skip (n : Nat) : Affordable need 0 (Cursor.skip n : DepthRead Unit) :=
  Affordable.forget (.array n) fun _ => .pure ()

theorem Affordable.times {x : DepthRead Unit} (h : Affordable need 0 x) (count : Nat) :
    Affordable need 0 (Cursor.times count x) := by
  induction count with
  | zero => exact .pure ()
  | succ count ih => exact h.bind fun _ => ih

/-- A value may nest what it pays for. -/
theorem Affordable.skipValue (depth : Nat) (ty : U32) :
    Affordable 36 0 (Cursor.skipValue depth ty : DepthRead Unit) := by
  induction depth generalizing ty with
  | zero => exact .fail _
  | succ depth ih =>
    refine Affordable.frame (.ite (.skip 1) (.ite (.skip 2) (.ite (.skip 4) (.ite (.skip 8)
      (.ite (.forget .string fun _ => .pure ()) (.ite ?_ (.fail _)))))))
    refine (Affordable.u32.bind fun elemTy => Affordable.u64.bind fun count => ?_).weaken (k := 4 + (8 + 0))
      (le_refl _) (Nat.zero_le _)
    exact .ite (.fail _) (.times (ih elemTy) count.val)

theorem Affordable.entry (depth : Nat) (found : Option String × Option U32) :
    Affordable 24 0 (Cursor.entry depth found : DepthRead _) := by
  refine (Affordable.string.bind fun key => Affordable.u32.bind fun ty => ?_).weaken (k := 8 + (4 + 0))
    (le_refl _) (Nat.zero_le _)
  refine .ite (.forget .string fun _ => .pure _) (.ite (.forget .u32 fun _ => .pure _) ?_)
  exact .forget (.skipValue depth ty) fun _ => .pure _

theorem Affordable.entries (depth count : Nat) (found : Option String × Option U32) :
    Affordable 24 0 (Cursor.entries depth count found : DepthRead _) := by
  induction count generalizing found with
  | zero => exact .pure found
  | succ count ih => exact .forget (.entry depth found) fun found => ih found

theorem Affordable.header (depth : Nat) : Affordable 0 0 (Cursor.header depth : DepthRead GgufHeader) := by
  refine ((Affordable.array 4).bind fun magic => .ite (.fail _) (Affordable.u32.bind fun version =>
    .ite (.fail _) (Affordable.u64.bind fun tensorCount => Affordable.u64.bind fun count =>
      .ite (.fail _) ?_))).weaken (k := 4 + (4 + (8 + (8 + 0)))) (le_refl _) (Nat.zero_le _)
  exact .forget (.entries depth count.val (none, none)) fun _ => .pure _

end

theorem skipDepth_eq (buf : List UInt8) :
    skipDepth buf = ((Cursor.header buf.length : DepthRead GgufHeader).run ⟨⟨buf, 0⟩, 0, 0⟩).2.deepest := rfl

/-- A frame after the first thirty-six bytes, and one more for every twelve. -/
theorem skipDepth_le (buf : List UInt8) : skipDepth buf = 0 ∨ 24 + 12 * skipDepth buf ≤ buf.length := by
  obtain ⟨hpaid, -, hbuf, -⟩ := Affordable.header buf.length ⟨⟨buf, 0⟩, 0, 0⟩ ⟨Nat.zero_le _, .inl rfl⟩
    (le_refl _)
  have hwithin := hpaid.within
  rw [hbuf] at hwithin
  exact hpaid.paid.imp_right fun h => h.trans hwithin

/-! ## At least -/

/-- Counting changes nothing in what is read, and what was reached is never forgotten. -/
def Counts {α : Type} (x : DepthRead α) (y : Read α) : Prop :=
  ∀ s : DepthReader, s.deepest ≤ (x.run s).2.deepest ∧ (x.run s).2.depth = s.depth ∧
    match y.run s.reader with
    | .ok (a, r) => (x.run s).1 = .ok a ∧ (x.run s).2.reader = r
    | .error e => (x.run s).1 = .error e

section

variable {α β : Type} {x : DepthRead α} {y : Read α} {f : α → DepthRead β} {g : α → Read β}

theorem Counts.bind (h : Counts x y) (hnext : ∀ a, Counts (f a) (g a)) : Counts (x >>= f) (y >>= g) := by
  intro s
  obtain ⟨hreached, hdepth, hread⟩ := h s
  rw [StateT.run_bind]
  cases hrun : x.run s with
  | mk result t =>
    rw [hrun] at hreached hdepth hread
    cases hplain : y.run s.reader with
    | error e =>
      rw [hplain] at hread
      dsimp only at hread
      rw [hread] at hrun
      rw [depth_bind_error hrun]
      exact ⟨hreached, hdepth, rfl⟩
    | ok p =>
      rw [hplain] at hread
      obtain ⟨hresult, hreader⟩ := hread
      dsimp only at hresult hreader hreached hdepth
      rw [hresult] at hrun
      rw [depth_bind_ok hrun]
      obtain ⟨hreached', hdepth', hread'⟩ := hnext p.1 t
      refine ⟨hreached.trans hreached', hdepth'.trans hdepth, ?_⟩
      rw [hreader] at hread'
      exact hread'

theorem Counts.array (n : Nat) : Counts (Cursor.array n) (Cursor.array n) := by
  intro s
  cases hread : (Cursor.array n : Read (List UInt8)).run s.reader with
  | error e =>
    have hrun : (Cursor.array n : DepthRead (List UInt8)).run s = (.error e, s) := by
      change DepthRead.array n s = _
      rw [DepthRead.array, show (Read.array n).run s.reader = _ from hread]
    rw [hrun]
    exact ⟨le_refl _, rfl, rfl⟩
  | ok p =>
    have hrun : (Cursor.array n : DepthRead (List UInt8)).run s = (.ok p.1, { s with reader := p.2 }) := by
      change DepthRead.array n s = _
      rw [DepthRead.array, show (Read.array n).run s.reader = _ from hread]
    rw [hrun]
    exact ⟨le_refl _, rfl, rfl, rfl⟩

theorem Counts.frame (h : Counts x y) : Counts (Cursor.frame x) (Cursor.frame y) := by
  intro s
  obtain ⟨hreached, -, hread⟩ := h { s with depth := s.depth + 1, deepest := max s.deepest (s.depth + 1) }
  exact ⟨(Nat.le_max_left _ _).trans hreached, rfl, hread⟩

end

/-- The depth is that of the very parse whose result the other reader gives. -/
def countSimulation : Simulation DepthRead Read where
  rel := Counts
  pure _ _ := ⟨le_refl _, rfl, rfl, rfl⟩
  bind := .bind
  array k _ := .array k
  fail _ _ := ⟨le_refl _, rfl, rfl⟩
  frame := .frame

section

variable {α β : Type} {x : DepthRead α} {y : Read α} {f : α → DepthRead β} {g : α → Read β}
  {before bytes after : List UInt8} {a : α} {s : DepthReader}

/-- Bytes that are read are behind the reader. -/
theorem Counts.step (h : Counts x y) (hreads : Reads y bytes a)
    (hs : s.reader = ⟨before ++ (bytes ++ after), before.length⟩) :
    ∃ t, t.reader = ⟨before ++ bytes ++ after, (before ++ bytes).length⟩ ∧ t.depth = s.depth ∧
      x.run s = (.ok a, t) := by
  obtain ⟨-, hdepth, hread⟩ := h s
  rw [hs, ← List.append_assoc, hreads before after, ← List.length_append] at hread
  cases hrun : x.run s with
  | mk result t =>
    rw [hrun] at hdepth hread
    obtain ⟨hresult, hreader⟩ := hread
    dsimp only at hresult hreader
    rw [hresult]
    exact ⟨t, hreader, hdepth, rfl⟩

/-- What a first read reaches is reached. -/
theorem deepest_bind (hnext : ∀ a t, t.deepest ≤ ((f a).run t).2.deepest) (s : DepthReader) :
    (x.run s).2.deepest ≤ ((x >>= f).run s).2.deepest := by
  cases hrun : x.run s with
  | mk result t =>
    cases result with
    | error e => rw [depth_bind_error hrun]
    | ok a =>
      rw [depth_bind_ok hrun]
      exact hnext a t

end

/-- An array in an array, and so on, each of one item; the innermost type announces one more. -/
def nestedArrays : Nat → List UInt8
  | 0 => []
  | c + 1 => leBytes 4 9 ++ (leBytes 8 1 ++ nestedArrays c)

theorem length_nestedArrays (c : Nat) : (nestedArrays c).length = 12 * c := by
  induction c with
  | zero => rfl
  | succ c ih =>
    simp only [nestedArrays, List.length_append, length_leBytes, ih]
    omega

/-- The body of a call for an array. -/
def arrayBody (m : Type → Type) [Cursor m] (depth : Nat) : m Unit := do
  let elemTy ← Cursor.u32
  let n ← Cursor.u64
  if MAX_METADATA_ENTRIES < n then Cursor.fail (.arrayLength n)
  else Cursor.times n.val (Cursor.skipValue depth elemTy)

theorem arrayBody_counts (depth : Nat) : Counts (arrayBody DepthRead depth) (arrayBody Read depth) :=
  countSimulation.bind countSimulation.u32 fun elemTy => countSimulation.bind countSimulation.u64 fun n =>
    countSimulation.ite (countSimulation.fail _)
      (countSimulation.times (countSimulation.skipValue depth elemTy) n.val)

/-- Every level of the nesting is a call. -/
theorem skipValue_reaches {c depth : Nat} (h : c < depth) {before : List UInt8} {s : DepthReader}
    (hs : s.reader = ⟨before ++ nestedArrays c, before.length⟩) :
    s.depth + c + 1 ≤ ((Cursor.skipValue depth 9 : DepthRead Unit).run s).2.deepest := by
  induction c generalizing depth before s with
  | zero =>
    cases depth with
    | zero => omega
    | succ depth =>
      have hbody := (arrayBody_counts depth
        { s with depth := s.depth + 1, deepest := max s.deepest (s.depth + 1) }).1
      exact (Nat.le_max_right _ _).trans hbody
  | succ c ih =>
    cases depth with
    | zero => omega
    | succ depth =>
      let inside : DepthReader := { s with depth := s.depth + 1, deepest := max s.deepest (s.depth + 1) }
      obtain ⟨t, ht, hdepth, hty⟩ := countSimulation.u32.step (Reads.u32 9) (show inside.reader = _ from hs)
      obtain ⟨u, hu, hdepth', hn⟩ := countSimulation.u64.step (Reads.u64 1) ht
      have hdeeper := ih (show c < depth by omega) hu
      have hrun : (arrayBody DepthRead depth).run inside =
          (Cursor.times 1 (Cursor.skipValue depth 9) : DepthRead Unit).run u := by
        rw [arrayBody, depth_bind_ok hty, depth_bind_ok hn, if_neg (by decide)]
        rfl
      have hreached : ((Cursor.skipValue depth 9 : DepthRead Unit).run u).2.deepest ≤
          ((Cursor.times 1 (Cursor.skipValue depth 9) : DepthRead Unit).run u).2.deepest :=
        deepest_bind (fun _ _ => le_refl _) u
      change _ ≤ ((arrayBody DepthRead depth).run inside).2.deepest
      rw [hrun]
      rw [hdepth', hdepth] at hdeeper
      have hinside : inside.depth = s.depth + 1 := rfl
      omega

/-- A file of nothing but nested arrays. -/
def nestedGguf (c : Nat) : List UInt8 :=
  GGUF_MAGIC ++ (leBytes 4 3 ++ (leBytes 8 0 ++ (leBytes 8 1 ++ (encodeString "" ++
    (leBytes 4 9 ++ nestedArrays c)))))

theorem length_nestedGguf (c : Nat) : (nestedGguf c).length = 36 + 12 * c := by
  have hmagic : GGUF_MAGIC.length = 4 := rfl
  have hkey : (encodeString "").length = 8 := rfl
  simp only [nestedGguf, List.length_append, length_leBytes, length_nestedArrays, hmagic, hkey]
  omega

theorem header_reaches {c n : Nat} (h : c < n) :
    c + 1 ≤ ((Cursor.header n : DepthRead GgufHeader).run ⟨⟨nestedGguf c, 0⟩, 0, 0⟩).2.deepest := by
  obtain ⟨s1, h1, d1, r1⟩ := (countSimulation.array 4 (by decide)).step
    (Reads.array (show GGUF_MAGIC.length = 4 from rfl))
    (show (⟨⟨nestedGguf c, 0⟩, 0, 0⟩ : DepthReader).reader = ⟨[] ++ (GGUF_MAGIC ++ _), [].length⟩ from rfl)
  obtain ⟨s2, h2, d2, r2⟩ := countSimulation.u32.step (Reads.u32 3) h1
  obtain ⟨s3, h3, d3, r3⟩ := countSimulation.u64.step (Reads.u64 0) h2
  obtain ⟨s4, h4, d4, r4⟩ := countSimulation.u64.step (Reads.u64 1) h3
  obtain ⟨s5, h5, d5, r5⟩ := countSimulation.string.step (Reads.string (s := "") (by decide)) h4
  obtain ⟨s6, h6, d6, r6⟩ := countSimulation.u32.step (Reads.u32 9) h5
  have hdeep := skipValue_reaches h h6
  have hheader : (Cursor.header n : DepthRead GgufHeader).run ⟨⟨nestedGguf c, 0⟩, 0, 0⟩ =
      (Cursor.entries n 1 (none, none) >>= fun found =>
        (pure ⟨3, 0, 1, found.1, found.2⟩ : DepthRead GgufHeader)).run s4 := by
    rw [Cursor.header, depth_bind_ok r1, if_neg (by decide), depth_bind_ok r2, if_neg (by decide),
      depth_bind_ok r3, depth_bind_ok r4, if_neg (by decide)]
    rfl
  have hentries : (Cursor.entries n 1 (none, none) : DepthRead _) =
      (Cursor.entry n (none, none) >>= fun found => Cursor.entries n 0 found) := rfl
  have hentry : (Cursor.entry n (none, none) : DepthRead _).run s4 =
      (Cursor.skipValue n 9 >>= fun _ => (pure (none, none) : DepthRead _)).run s6 := by
    rw [Cursor.entry, depth_bind_ok r5, depth_bind_ok r6, if_neg (by decide), if_neg (by decide)]
  have hzero : s6.depth = 0 := by rw [d6, d5, d4, d3, d2, d1]
  calc c + 1 ≤ ((Cursor.skipValue n 9 : DepthRead Unit).run s6).2.deepest := by omega
    _ ≤ ((Cursor.entry n (none, none) : DepthRead _).run s4).2.deepest := by
      rw [hentry]
      exact deepest_bind (fun _ _ => le_refl _) s6
    _ ≤ ((Cursor.entries n 1 (none, none) : DepthRead _).run s4).2.deepest := by
      rw [hentries]
      exact deepest_bind (fun _ _ => le_refl _) s4
    _ ≤ ((Cursor.header n : DepthRead GgufHeader).run ⟨⟨nestedGguf c, 0⟩, 0, 0⟩).2.deepest := by
      rw [hheader]
      exact deepest_bind (fun _ _ => le_refl _) s4

theorem nestedGguf_reaches (c : Nat) : c + 1 ≤ skipDepth (nestedGguf c) := by
  have hfuel : c < (nestedGguf c).length := by
    rw [length_nestedGguf]
    omega
  rw [skipDepth_eq]
  exact header_reaches hfuel

/-- All files of a size stay within a depth exactly when the size does not pay for one call more. -/
theorem skipDepth_bounded (n c : Nat) :
    (∀ buf : List UInt8, buf.length ≤ n → skipDepth buf ≤ c) ↔ n < 12 * c + 36 := by
  constructor
  · intro h
    by_contra hpays
    have hdeep := h (nestedGguf c) (by rw [length_nestedGguf]; omega)
    have hreached := nestedGguf_reaches c
    omega
  · intro hsize buf hbuf
    have hpaid := skipDepth_le buf
    omega

/-- No depth bounds the files of every size, and one file of the size that is read from disk nests more
than a million calls. -/
theorem nesting_unbounded :
    (¬ ∃ c, ∀ buf : List UInt8, skipDepth buf ≤ c) ∧
      ∃ buf : List UInt8, buf.length ≤ HEADER_READ_SIZE ∧ skipDepth buf = 1398099 := by
  constructor
  · rintro ⟨c, h⟩
    have hreached := nestedGguf_reaches c
    have hdeep := h (nestedGguf c)
    omega
  · have hlen := length_nestedGguf 1398098
    have hreached := nestedGguf_reaches 1398098
    have hpaid := skipDepth_le (nestedGguf 1398098)
    refine ⟨nestedGguf 1398098, ?_, by omega⟩
    rw [hlen]
    decide

end Arknet.Laws
