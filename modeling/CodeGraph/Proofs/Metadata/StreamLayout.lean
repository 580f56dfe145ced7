import CodeGraph.Metadata.Root
import CodeGraph.Proofs.Metadata.Written

namespace CodeGraph.Metadata

open ByteReader Plain

/-!
# Streams that are found where they are laid out

The root of metadata is laid out as its mark, its versions, its version text, its flags and the headers of
its streams. Behind them stand the contents of the streams in the order of their headers. The directory read
from it has an entry for each stream, with its name and the place of its contents. Whatever bytes a directory
is read from, its entries do not reach behind them.
-/

/-! ## The layout -/

/-- Bytes with zeros behind them up to a multiple of four. -/
def padded (l : Bytes) : Bytes :=
  l ++ zeros ((4 - l.length % 4) % 4)

structure MetadataStream where
  name : String
  contents : Bytes
  /-- What stands between these contents and the next. -/
  gap : Bytes
  named : ∀ c ∈ name.toList, c ≠ '\x00' ∧ c.toNat < 256

namespace MetadataStream

def header (s : MetadataStream) (start : Nat) : Bytes :=
  little 4 start ++ little 4 s.contents.length ++ padded (ascii s.name ++ [0])

def body (s : MetadataStream) : Bytes :=
  s.contents ++ s.gap

/-- The headers of streams whose contents stand one after the other from an offset on. -/
def headers : (start : Nat) → List MetadataStream → Bytes
  | _, [] => []
  | start, s :: later => s.header start ++ headers (start + s.body.length) later

/-- The entries that tell where these streams stand. -/
def entries : (start : Nat) → List MetadataStream → List StreamEntry
  | _, [] => []
  | start, s :: later => ⟨s.name, start, s.contents.length⟩ :: entries (start + s.body.length) later

end MetadataStream

structure RootLayout where
  major : Nat
  minor : Nat
  reserved : Nat
  version : Bytes
  flags : Nat
  streams : List MetadataStream
  few : streams.length ≤ 65535
  held : ∀ s ∈ streams.getLast?, s.contents ≠ []

namespace RootLayout

def mark (l : RootLayout) : Bytes :=
  rootMark ++ little 2 l.major ++ little 2 l.minor ++ little 4 l.reserved

/-- What stands before the headers. -/
def head (l : RootLayout) : Bytes :=
  l.mark ++ little 4 (padded l.version).length ++ padded l.version ++ little 2 l.flags ++
    little 2 l.streams.length

/-- Where the contents begin. No header's length depends on the offset that is written in it. -/
def start (l : RootLayout) : Nat :=
  l.head.length + (MetadataStream.headers 0 l.streams).length

def bytes (l : RootLayout) : Bytes :=
  l.head ++ MetadataStream.headers l.start l.streams ++ l.streams.flatMap (·.body)

end RootLayout

/-- An entry names a stream and tells where its contents stand among these bytes. -/
def MetadataStream.StandsAt (data : Bytes) (s : MetadataStream) (e : StreamEntry) : Prop :=
  e.name = s.name ∧ slice? data.toArray e.start e.length = some s.contents

/-! ## Reading one header -/

theorem zeroEnded_append {l : Bytes} (h : ∀ b ∈ l, b ≠ 0) (rest : Bytes) :
    zeroEnded (l ++ 0 :: rest) = some (l, rest) := by
  induction l with
  | nil => rfl
  | cons b l ih =>
      obtain ⟨hb, hl⟩ := List.forall_mem_cons.mp h
      rw [List.cons_append, zeroEnded, if_neg hb, ih hl, Option.map_some]

section Name

variable {name : String} (h : ∀ c ∈ name.toList, c ≠ '\x00' ∧ c.toNat < 256)
include h

theorem ascii_ne_zero : ∀ b ∈ ascii name, b ≠ 0 := by
  intro b hb
  obtain ⟨c, hc, rfl⟩ := List.mem_map.mp hb
  obtain ⟨hzero, hsmall⟩ := h c hc
  intro hb
  have hnat : c.toNat % 256 = 0 := UInt8.toNat_ofNat'.symm.trans (congrArg UInt8.toNat hb)
  exact hzero (Char.toNat_inj.mp (show c.toNat = 0 by omega))

theorem ofList_ascii : String.ofList ((ascii name).map fun b => Char.ofNat b.toNat) = name := by
  have hchar : ∀ c ∈ name.toList, Char.ofNat (UInt8.ofNat c.toNat).toNat = c := by
    intro c hc
    rw [UInt8.toNat_ofNat', Nat.mod_eq_of_lt (h c hc).2, Char.ofNat_toNat]
  have hmap : (ascii name).map (fun b => Char.ofNat b.toNat) = name.toList := by
    rw [ascii, List.map_map]
    exact (List.map_congr_left hchar).trans (List.map_id _)
  rw [hmap, String.ofList_toList]

end Name

theorem streamEntry_header {total start : Nat} {s : MetadataStream} {rest : Bytes}
    (hwithin : start + s.contents.length ≤ total) (htotal : total < 2 ^ 32) (hrest : rest ≠ []) :
    streamEntry total (s.header start ++ rest) = some (⟨s.name, start, s.contents.length⟩, rest) := by
  obtain ⟨b, rest, rfl⟩ := List.exists_cons_of_ne_nil hrest
  have hname : ∀ l, zeroEnded (ascii s.name ++ [0] ++ l) = some (ascii s.name, l) := fun l => by
    rw [List.append_assoc]
    exact zeroEnded_append (ascii_ne_zero s.named) l
  have hpadding : skip ((4 - ((ascii s.name).length + 1) % 4) % 4)
      (zeros ((4 - (ascii s.name ++ [0]).length % 4) % 4) ++ b :: rest) = some ((), b :: rest) :=
    skip_append (by simp [zeros]) _
  have hpeek : peek (b :: rest) = some (b.toNat, b :: rest) := rfl
  rw [MetadataStream.header, padded]
  simp only [List.append_assoc _ _ (b :: rest)]
  rw [List.append_assoc, streamEntry, u32, bind_eq (number_little (by omega) _),
    bind_eq (number_little (by omega) _), bind_eq (hname _), bind_eq hpadding, bind_eq hpeek, if_pos hwithin,
    ofList_ascii s.named]
  rfl

/-! ## Reading the directory -/

theorem times_headers {total start : Nat} {streams : List MetadataStream} {rest : Bytes}
    (hwithin : start + (streams.flatMap (·.body)).length ≤ total) (htotal : total < 2 ^ 32)
    (hrest : streams ≠ [] → rest ≠ []) :
    times (streamEntry total) streams.length (MetadataStream.headers start streams ++ rest) =
      some (MetadataStream.entries start streams, rest) := by
  induction streams generalizing start with
  | nil => rfl
  | cons s later ih =>
      have hrest := hrest (List.cons_ne_nil s later)
      have hbody : s.body.length = s.contents.length + s.gap.length := List.length_append
      rw [List.flatMap_cons, List.length_append] at hwithin
      rw [MetadataStream.headers, List.append_assoc, List.length_cons, times,
        bind_eq (streamEntry_header (by omega) htotal (List.append_ne_nil_of_right_ne_nil _ hrest)),
        map_eq (ih (by omega) fun _ => hrest), MetadataStream.entries]

namespace RootLayout

variable (l : RootLayout)

theorem length_headers (a b : Nat) (streams : List MetadataStream) :
    (MetadataStream.headers a streams).length = (MetadataStream.headers b streams).length := by
  induction streams generalizing a b with
  | nil => rfl
  | cons s later ih =>
      have hlater := ih (a + s.body.length) (b + s.body.length)
      simp only [MetadataStream.headers, MetadataStream.header, List.length_append, length_little, hlater]

theorem length_bytes : l.bytes.length = l.start + (l.streams.flatMap (·.body)).length := by
  rw [bytes, List.length_append, List.length_append, start, length_headers]

theorem bodies_ne_nil (h : l.streams ≠ []) : l.streams.flatMap (·.body) ≠ [] := by
  intro hnil
  have hbody : (l.streams.getLast h).body = [] := List.flatMap_eq_nil_iff.mp hnil _ (List.getLast_mem h)
  exact l.held _ (List.getLast?_eq_getLast_of_ne_nil h) (List.append_eq_nil_iff.mp hbody).1

theorem streamDirectory_bytes (h : l.bytes.length < 2 ^ 32) :
    streamDirectory l.bytes = some (MetadataStream.entries l.start l.streams) := by
  have hmark : l.mark.length = 12 := by simp [mark, rootMark, length_little]
  have hversion : (padded l.version).length < 256 ^ 4 := by
    simp only [bytes, head, List.length_append] at h
    omega
  have hcount : l.streams.length < 256 ^ 2 := Nat.lt_succ_of_le l.few
  have hread := times_headers l.length_bytes.ge h l.bodies_ne_nil
  have hbytes : l.bytes = l.mark ++ (little 4 (padded l.version).length ++ (padded l.version ++
      (little 2 l.flags ++ (little 2 l.streams.length ++ (MetadataStream.headers l.start l.streams ++
        l.streams.flatMap (·.body)))))) := by
    simp only [bytes, head, List.append_assoc]
  rw [streamDirectory]
  generalize l.bytes.length = total at hread
  rw [hbytes, bind_eq (skip_append hmark _), u32, bind_eq (number_little hversion _), bind_eq (skip_append rfl _),
    bind_eq (skip_append (length_little 2 l.flags) _), u16, bind_eq (number_little hcount _), hread]
  rfl

end RootLayout

/-! ## Places among the bytes -/

theorem slice?_append (before l after : Bytes) :
    slice? (before ++ l ++ after).toArray before.length l.length = some l := by
  have hsize : before.length + l.length ≤ (before ++ l ++ after).toArray.size := by simp
  rw [slice?, if_pos hsize, slice]
  simp

theorem standsAt_entries {data before : Bytes} {streams : List MetadataStream}
    (h : data = before ++ streams.flatMap (·.body)) :
    List.Forall₂ (MetadataStream.StandsAt data) streams (MetadataStream.entries before.length streams) := by
  induction streams generalizing before with
  | nil => exact .nil
  | cons s later ih =>
      refine .cons ⟨rfl, ?_⟩ ?_
      · have hdata : data = before ++ s.contents ++ (s.gap ++ later.flatMap (·.body)) := by
          simp [h, MetadataStream.body]
        rw [hdata]
        exact slice?_append before s.contents _
      · rw [← List.length_append]
        exact ih (by rw [h, List.flatMap_cons, List.append_assoc])

theorem times_forall {α : Type} {r : ByteReader α} {P : α → Prop}
    (hr : ∀ s a rest, r s = some (a, rest) → P a) {n : Nat} {s rest : Bytes} {l : List α}
    (h : times r n s = some (l, rest)) : ∀ a ∈ l, P a := by
  induction n generalizing s l rest with
  | zero =>
      obtain rfl : [] = l := congrArg Prod.fst (Option.some.inj h)
      simp
  | succ n ih =>
      rw [times, bind_eq_some_iff] at h
      obtain ⟨a, more, ha, h⟩ := h
      obtain ⟨later, more, hlater, h⟩ := bind_eq_some_iff.mp h
      obtain rfl : a :: later = l := congrArg Prod.fst (Option.some.inj h)
      exact List.forall_mem_cons.mpr ⟨hr _ _ _ ha, ih hlater⟩

theorem within_streamEntry {total : Nat} {s rest : Bytes} {e : StreamEntry}
    (h : streamEntry total s = some (e, rest)) : e.start + e.length ≤ total := by
  unfold streamEntry at h
  simp only [bind_eq_some_iff] at h
  obtain ⟨start, _, -, length, _, -, name, _, -, _, _, -, _, _, -, h⟩ := h
  split at h
  · next hwithin =>
    obtain rfl := congrArg Prod.fst (Option.some.inj h)
    exact hwithin
  · cases h

theorem within_streamDirectory {data : Bytes} {entries : List StreamEntry}
    (h : streamDirectory data = some entries) : ∀ e ∈ entries, e.start + e.length ≤ data.length := by
  unfold streamDirectory at h
  simp only [Option.bind_eq_bind, Option.bind_eq_some_iff] at h
  obtain ⟨⟨read, rest⟩, hread, h⟩ := h
  simp only [bind_eq_some_iff] at hread
  obtain ⟨_, _, -, version, _, -, _, _, -, _, _, -, count, more, -, hread⟩ := hread
  obtain rfl : read = entries := Option.some.inj h
  exact times_forall (fun _ _ _ => within_streamEntry) hread

/-- A directory has an entry for each stream that is laid out, which tells where its contents stand, and no
entry of any directory reaches behind the bytes that it is read from. -/
theorem streamDirectory_laidOut :
    (∀ l : RootLayout, l.bytes.length < 2 ^ 32 → ∃ entries, streamDirectory l.bytes = some entries ∧
      List.Forall₂ (MetadataStream.StandsAt l.bytes) l.streams entries) ∧
    ∀ data entries, streamDirectory data = some entries → ∀ e ∈ entries, e.start + e.length ≤ data.length := by
  refine ⟨fun l h => ⟨_, l.streamDirectory_bytes h, ?_⟩, fun _ _ => within_streamDirectory⟩
  have hstart : (l.head ++ MetadataStream.headers l.start l.streams).length = l.start := by
    rw [List.length_append, RootLayout.length_headers l.start 0, RootLayout.start]
  have hplaces := standsAt_entries (show l.bytes = _ ++ l.streams.flatMap (·.body) from rfl)
  rwa [hstart] at hplaces

/-- Two streams with a gap between them. -/
def twoStreams : RootLayout where
  major := 1
  minor := 1
  reserved := 0
  version := ascii "v4.0.30319" ++ [0]
  flags := 0
  streams := [⟨"#~", [1, 2, 3], [0], by simp⟩, ⟨"#Blob", [0], [], by simp⟩]
  few := by decide
  held := by simp

theorem streamDirectory_laidOut_twoStreams :
    ∃ entries, streamDirectory twoStreams.bytes = some entries ∧
      List.Forall₂ (MetadataStream.StandsAt twoStreams.bytes) twoStreams.streams entries ∧
      ∀ e ∈ entries, e.start + e.length ≤ twoStreams.bytes.length := by
  obtain ⟨hlaid, hwithin⟩ := streamDirectory_laidOut
  obtain ⟨entries, hread, hplaces⟩ := hlaid twoStreams (by decide)
  exact ⟨entries, hread, hplaces, hwithin _ _ hread⟩

end CodeGraph.Metadata
