import Arknet.Inference.Session
import Arknet.Lib.Borsh

/-!
The buffer of a stream's bytes. However the bytes are cut, what is handed out and flushed is the lossy
decoding of them all; but a byte that can never become a character holds back all that comes after it.
-/

namespace Arknet.Laws

open Arknet.Inference

/-! ## Strings and bytes -/

theorem utf8_ofList (cs : List Char) : utf8 (String.ofList cs) = Utf8.encode cs := by
  rw [utf8, String.toByteArray_ofList, List.utf8Encode, List.data_toByteArray]
  rfl

theorem utf8_toList (s : String) : utf8 s = Utf8.encode s.toList := by
  rw [← utf8_ofList, String.ofList_toList]

theorem utf8_valid (s : String) : Utf8.Valid (utf8 s) := ⟨s.toList, utf8_toList s⟩

theorem fromUTF8?_eq_some {bytes : List UInt8} {s : String} :
    String.fromUTF8? ⟨bytes.toArray⟩ = some s ↔ utf8 s = bytes := by
  have h := Borsh.Codec.utf8PEquiv.inv bytes s
  exact ⟨fun hs => Option.some.inj (h.mpr hs), fun hs => h.mp (congrArg some hs)⟩

theorem valid_iff {bytes : List UInt8} : Utf8.Valid bytes ↔ ∃ s, utf8 s = bytes := by
  constructor
  · rintro ⟨cs, rfl⟩
    exact ⟨String.ofList cs, utf8_ofList cs⟩
  · rintro ⟨s, rfl⟩
    exact utf8_valid s

/-! ## One feed -/

/-- What is handed out is in front of what is pending, and no character starts there. -/
structure PieceBuffer.Split (bytes : List UInt8) (s : String) (b : PieceBuffer) : Prop where
  all : utf8 s ++ b.pending = bytes
  broken : Utf8.front b.pending = none

/-- The search from the back finds the last index. -/
theorem findSome?_range_reverse {β : Type} {f : Nat → Option β} {k : Nat} {b : β}
    (h : (List.range k).reverse.findSome? f = some b) :
    ∃ n < k, f n = some b ∧ ∀ m, n < m → m < k → f m = none := by
  induction k with
  | zero => cases h
  | succ k ih =>
    rw [List.range_succ, List.reverse_append, List.reverse_singleton, List.singleton_append,
      List.findSome?_cons] at h
    cases hk : f k with
    | some c =>
      rw [hk] at h
      obtain rfl := Option.some.inj h
      exact ⟨k, Nat.lt_succ_self k, hk, fun m hlt hle => absurd hlt (by omega)⟩
    | none =>
      rw [hk] at h
      obtain ⟨n, hn, hfound, hlast⟩ := ih h
      refine ⟨n, by omega, hfound, fun m hlt hle => ?_⟩
      obtain rfl | hne := eq_or_ne m k
      · exact hk
      · exact hlast m hlt (by omega)

theorem feed_split (b : PieceBuffer) (bytes : List UInt8) :
    PieceBuffer.Split (b.pending ++ bytes) (b.feed bytes).1 (b.feed bytes).2 := by
  generalize hall : b.pending ++ bytes = all
  have hempty : String.fromUTF8? ⟨(all.take 0).toArray⟩ = some "" := fromUTF8?_eq_some.mpr rfl
  unfold PieceBuffer.feed
  simp only [hall]
  split
  · rename_i s n hfound
    rw [List.head?_filterMap] at hfound
    obtain ⟨m, hm, hsome, hlast⟩ := findSome?_range_reverse hfound
    obtain ⟨t, ht, hpair⟩ := Option.map_eq_some_iff.mp hsome
    cases hpair
    have hbytes := fromUTF8?_eq_some.mp ht
    refine ⟨by rw [hbytes, List.take_append_drop], ?_⟩
    by_contra hfront
    obtain ⟨c, hc⟩ := Option.ne_none_iff_exists'.mp hfront
    obtain ⟨rest, hrest⟩ := Utf8.exists_of_front hc
    -- a character behind the prefix would make a longer one
    have hsplit : all = (utf8 s ++ String.utf8EncodeChar c) ++ rest := by
      rw [List.append_assoc, ← hrest, hbytes, List.take_append_drop]
    have hlen : (utf8 s ++ String.utf8EncodeChar c).length = n + (String.utf8EncodeChar c).length := by
      rw [List.length_append, hbytes, List.length_take, Nat.min_eq_left (by omega)]
    have hpos := Utf8.encodeChar_pos c
    have hbound := congrArg List.length hsplit
    rw [List.length_append] at hbound
    have hlonger := hlast (utf8 s ++ String.utf8EncodeChar c).length (by omega) (by omega)
    rw [Option.map_eq_none_iff] at hlonger
    have hchar : Utf8.Valid (String.utf8EncodeChar c) := ⟨[c], by simp⟩
    obtain ⟨u, hu⟩ := valid_iff.mp ((utf8_valid s).append hchar)
    rw [hsplit, List.take_left, fromUTF8?_eq_some.mpr hu] at hlonger
    cases hlonger
  · rename_i hnone
    rw [List.head?_filterMap, List.findSome?_eq_none_iff] at hnone
    have hzero := hnone 0 (by simp)
    rw [hempty] at hzero
    cases hzero

/-! ## A whole stream -/

/-- The buffer and what it has handed out, after some chunks. -/
def feedAll (chunks : List (List UInt8)) : String × PieceBuffer :=
  chunks.foldl (fun out chunk => (out.1 ++ (out.2.feed chunk).1, (out.2.feed chunk).2)) ("", .new)

theorem feedAll_snoc (chunks : List (List UInt8)) (chunk : List UInt8) :
    feedAll (chunks ++ [chunk]) = ((feedAll chunks).1 ++ ((feedAll chunks).2.feed chunk).1,
      ((feedAll chunks).2.feed chunk).2) := by
  rw [feedAll, List.foldl_append]
  rfl

/-- However the bytes were cut: what was handed out and what is pending is all of them. -/
theorem feedAll_split (chunks : List (List UInt8)) :
    PieceBuffer.Split chunks.flatten (feedAll chunks).1 (feedAll chunks).2 := by
  induction chunks using List.reverseRecOn with
  | nil => exact ⟨rfl, rfl⟩
  | append_singleton chunks chunk ih =>
    have hfeed := feed_split (feedAll chunks).2 chunk
    rw [feedAll_snoc]
    refine ⟨?_, hfeed.broken⟩
    rw [utf8_append, List.append_assoc, hfeed.all, ← List.append_assoc, ih.all, List.flatten_append,
      List.flatten_singleton]

/-- What is handed out and what is flushed do not depend on the cuts. -/
theorem feedAll_flush (chunks : List (List UInt8)) :
    (feedAll chunks).1 ++ (feedAll chunks).2.flush.1 = fromUtf8Lossy chunks.flatten := by
  have hsplit := feedAll_split chunks
  rw [PieceBuffer.flush, fromUtf8Lossy, fromUtf8Lossy, ← hsplit.all, utf8_toList, Utf8.lossy_encode,
    String.ofList_append, String.ofList_toList]

/-- All but the last three bytes are whole characters. -/
def NearlyValid (bytes : List UInt8) : Prop :=
  ∃ whole rest, bytes = whole ++ rest ∧ Utf8.Valid whole ∧ rest.length ≤ 3

theorem nearlyValid_iff {bytes : List UInt8} {s : String} {b : PieceBuffer}
    (h : PieceBuffer.Split bytes s b) : NearlyValid bytes ↔ b.pending.length ≤ 3 := by
  constructor
  · rintro ⟨whole, rest, hbytes, hwhole, hrest⟩
    have hsplit := h.all.trans hbytes
    have hlonger := Utf8.length_le_of_valid (utf8_valid s) hwhole hsplit h.broken
    have hlen := congrArg List.length hsplit
    rw [List.length_append, List.length_append] at hlen
    omega
  · intro hpending
    exact ⟨utf8 s, b.pending, h.all.symm, utf8_valid s, hpending⟩

/-- Nothing is pending behind whole characters only. -/
theorem pending_eq_nil {bytes : List UInt8} {s : String} {b : PieceBuffer} (h : PieceBuffer.Split bytes s b) :
    b.pending = [] ↔ Utf8.Valid bytes := by
  constructor
  · intro hnil
    rw [← h.all, hnil, List.append_nil]
    exact utf8_valid s
  · intro hvalid
    rw [← h.all] at hvalid
    exact Utf8.front_eq_none_of_valid h.broken ((utf8_valid s).cancel hvalid) (List.prefix_refl _)

theorem flush_eq_empty {b : PieceBuffer} : b.flush.1 = "" ↔ b.pending = [] := by
  rw [PieceBuffer.flush, fromUtf8Lossy, ← String.ofList_nil, String.ofList_inj, Utf8.lossy_eq_nil]

/-- Nearly valid bytes are nearly valid wherever they are cut off. -/
theorem NearlyValid.take {bytes : List UInt8} (h : NearlyValid bytes) {front back : List UInt8}
    (hcut : bytes = front ++ back) : NearlyValid front := by
  obtain ⟨whole, rest, rfl, hwhole, hrest⟩ := h
  obtain ⟨u, rfl, rfl⟩ | ⟨u, rfl, -⟩ := List.append_eq_append_iff.mp hcut
  · rw [List.length_append] at hrest
    exact ⟨whole, u, rfl, hwhole, by omega⟩
  · exact hwhole.cut

/-- The stream decodes as its bytes do, however they are cut; and the buffer holds at most three bytes after
every feed exactly when all but the last three bytes of the stream are whole characters. -/
theorem stream_decoding (chunks : List (List UInt8)) :
    ((feedAll chunks).1 ++ (feedAll chunks).2.flush.1 = fromUtf8Lossy chunks.flatten ∧
      ∀ k ≤ chunks.length, (feedAll (chunks.take k)).2.pending.length ≤ 3) ↔
      NearlyValid chunks.flatten := by
  constructor
  · rintro ⟨-, hbounded⟩
    rw [nearlyValid_iff (feedAll_split chunks)]
    have hall := hbounded chunks.length (Nat.le_refl _)
    rwa [List.take_length] at hall
  · intro hnearly
    refine ⟨feedAll_flush chunks, fun k _ => (nearlyValid_iff (feedAll_split _)).mp ?_⟩
    have hcut : chunks.flatten = (chunks.take k).flatten ++ (chunks.drop k).flatten := by
      rw [← List.flatten_append, List.take_append_drop]
    exact hnearly.take hcut

/-- A stray byte, and then three letters one by one. -/
def strayChunks : List (List UInt8) := [[0xFF], [0x61], [0x62], [0x63]]

/-- The letters are not handed out. -/
theorem letters_withheld :
    ¬ ((feedAll strayChunks).1 ++ (feedAll strayChunks).2.flush.1 = fromUtf8Lossy strayChunks.flatten ∧
      ∀ k ≤ strayChunks.length, (feedAll (strayChunks.take k)).2.pending.length ≤ 3) := by
  rintro ⟨-, hbounded⟩
  have hnearly := (nearlyValid_iff (feedAll_split strayChunks)).mpr (hbounded 4 (Nat.le_refl _))
  obtain ⟨whole, rest, hbytes, hwhole, hrest⟩ := hnearly
  have hstray : Utf8.front strayChunks.flatten = none := by decide
  have hnil := Utf8.front_eq_none_of_valid hstray hwhole ⟨rest, hbytes.symm⟩
  rw [hnil] at hbytes
  have hfour := congrArg List.length hbytes
  simp [strayChunks] at hfour
  omega

end Arknet.Laws
