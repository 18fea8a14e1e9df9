import RefSugar.Proofs.LinePlaces
import RefSugar.SourceMap

/-! Reading source maps. Main statement: the map of a result that was put together from edits decodes to
one segment for each mapping, with the place of the result and the place of the source. -/
namespace RefSugar.SourceMap

variable {rest text : List Char} {n : Nat} {c : Char}

def digitValue? (c : Char) : Option Nat :=
  base64.idxOf? c

/-- The number at the start of a text, and what stands behind it. A digit from 32 on tells that
another one follows. -/
def readNat : List Char → Option (Nat × List Char)
  | [] => none
  | c :: rest => do
    let value ← digitValue? c
    if value < 32 then return (value, rest)
    let (high, rest) ← readNat rest
    return (value - 32 + 32 * high, rest)

def signed (n : Nat) : Int :=
  if n % 2 = 0 then (n / 2 : Nat) else -(n / 2 : Nat)

def readFrom (last : Nat) (text : List Char) : Option (Nat × List Char) := do
  let (n, rest) ← readNat text
  let sum := last + signed n
  if sum < 0 then none else return (sum.toNat, rest)

/-- The segment at the start of a text. It tells the differences to the last one; there is only one
source, so that the difference of sources is none. -/
def readSegment (last : Segment) (text : List Char) : Option (Segment × List Char) := do
  let (column, rest) ← readFrom last.column text
  let (source, rest) ← readFrom 0 rest
  let (sourceLine, rest) ← readFrom last.sourceLine rest
  let (sourceColumn, rest) ← readFrom last.sourceColumn rest
  if source = 0 then return ({ last with column, sourceLine, sourceColumn }, rest) else none

/-- Reading a number takes at least a digit. -/
theorem readNat_shorter (h : readNat text = some (n, rest)) :
    rest.length < text.length := by
  induction text generalizing n with
  | nil => cases h
  | cons c text ih =>
    simp only [readNat, Option.bind_eq_bind, Option.bind_eq_some_iff] at h
    obtain ⟨value, _, h⟩ := h
    split at h
    · obtain ⟨_, rfl⟩ := Prod.mk.inj (Option.some.inj h)
      simp
    · obtain ⟨⟨high, rest'⟩, hrest, h⟩ := Option.bind_eq_some_iff.mp h
      obtain ⟨_, rfl⟩ := Prod.mk.inj (Option.some.inj h)
      exact Nat.lt_succ_of_lt (ih hrest)

theorem readFrom_shorter {last : Nat}
    (h : readFrom last text = some (n, rest)) : rest.length < text.length := by
  simp only [readFrom, Option.bind_eq_bind, Option.bind_eq_some_iff] at h
  obtain ⟨⟨_, rest'⟩, hread, h⟩ := h
  split at h
  · cases h
  · obtain ⟨_, rfl⟩ := Prod.mk.inj (Option.some.inj h)
    exact readNat_shorter hread

theorem readSegment_shorter {last s : Segment}
    (h : readSegment last text = some (s, rest)) : rest.length < text.length := by
  simp only [readSegment, Option.bind_eq_bind, Option.bind_eq_some_iff] at h
  obtain ⟨⟨_, rest₁⟩, h₁, ⟨_, rest₂⟩, h₂, ⟨_, rest₃⟩, h₃, ⟨_, rest₄⟩, h₄, h⟩ := h
  have h₁ := readFrom_shorter h₁
  have h₂ := readFrom_shorter h₂
  have h₃ := readFrom_shorter h₃
  have h₄ := readFrom_shorter h₄
  split at h
  · obtain ⟨_, rfl⟩ := Prod.mk.inj (Option.some.inj h)
    exact h₄.trans (h₃.trans (h₂.trans h₁))
  · cases h

/-- The segments of a text. A semicolon starts a line, whose columns count from zero again; behind a
segment of the same line, marked by `behind`, there has to be a comma. -/
def decodeFrom (behind : Bool) (last : Segment) : List Char → Option (List Segment)
  | [] => some []
  | c :: rest =>
    if c = ';' then decodeFrom false { last with line := last.line + 1, column := 0 } rest
    else if behind && c != ',' then none
    else
      match _ : readSegment last (if behind then rest else c :: rest) with
      | none => none
      | some (s, rest') => (decodeFrom true s rest').map (s :: ·)
termination_by text => text.length
decreasing_by
  · simp
  · rename_i hread
    have hshorter := readSegment_shorter hread
    split at hshorter <;> simp only [List.length_cons] at hshorter ⊢ <;> omega

def decode (text : List Char) : Option (List Segment) :=
  decodeFrom false ⟨0, 0, 0, 0⟩ text

section Numbers

theorem digitValue?_digit (h : n < 64) : digitValue? (digit n) = some n := by
  revert n
  decide +kernel

theorem readNat_encodeNat (n : Nat) (rest : List Char) :
    readNat (encodeNat n ++ rest) = some (n, rest) := by
  -- five bits at a time, the lowest ones first
  induction n using Nat.strongRecOn with
  | ind n ih =>
    rw [encodeNat]
    split
    · rename_i hsmall
      simp [readNat, digitValue?_digit (by omega : n < 64), hsmall]
    · have hdigit := digitValue?_digit (by omega : 32 + n % 32 < 64)
      simp [readNat, hdigit, ih (n / 32) (by omega), Nat.mod_add_div]

theorem readFrom_difference (last n : Nat) (rest : List Char) :
    readFrom last (difference n last ++ rest) = some (n, rest) := by
  have hsigned : signed (if (n : Int) - last < 0 then 2 * ((n : Int) - last).natAbs + 1
      else 2 * ((n : Int) - last).natAbs) = (n : Int) - last := by
    unfold signed
    split <;> split <;> omega
  have hsum : (last : Int) + ((n : Int) - last) = n := by omega
  rw [readFrom, difference, encodeInt, readNat_encodeNat]
  simp only [Option.bind_eq_bind, Option.bind_some, hsigned, hsum]
  simp

end Numbers

section Segments

/-- What a decoder starts a segment from: on a new line the column counts from zero again. -/
def Segment.onLine (last : Segment) (line : Nat) : Segment :=
  if line = last.line then last else { last with line, column := 0 }

/-- A segment that has been written is read back. -/
theorem readSegment_encodeSegment (last s : Segment) (rest : List Char) :
    readSegment (last.onLine s.line) (encodeSegment last s ++ rest) = some (s, rest) := by
  have hsource : difference 0 0 = ['A'] := by
    rw [difference, encodeInt, encodeNat]
    rfl
  have hlast : last.onLine s.line = { last with line := s.line, column :=
      if s.line == last.line then last.column else 0 } := by
    unfold Segment.onLine
    split
    · rename_i hline
      simp [hline]
    · rename_i hline
      simp [hline]
  rw [hlast, encodeSegment, ← List.singleton_append, ← hsource]
  simp only [readSegment, List.append_assoc, readFrom_difference, Option.bind_eq_bind,
    Option.bind_some, if_true]
  rfl

theorem digit_mem (n : Nat) : digit n ∈ base64 := by
  rw [digit, List.getD_eq_getElem?_getD]
  cases h : base64[n]? with
  | none => decide
  | some c => exact List.mem_of_getElem? h

theorem encodeNat_digits (n : Nat) : encodeNat n ≠ [] ∧ ∀ c ∈ encodeNat n, c ∈ base64 := by
  induction n using Nat.strongRecOn with
  | ind n ih =>
    rw [encodeNat]
    split
    · simp [digit_mem]
    · simp only [ne_eq, reduceCtorEq, not_false_eq_true, List.mem_cons, true_and]
      rintro c (rfl | hc)
      · exact digit_mem _
      · exact (ih (n / 32) (by omega)).2 c hc

theorem encodeSegment_digits (last s : Segment) :
    encodeSegment last s ≠ [] ∧ ∀ c ∈ encodeSegment last s, c ∈ base64 := by
  have hdigits (a b : Nat) := encodeNat_digits
    (if (a : Int) - b < 0 then 2 * ((a : Int) - b).natAbs + 1 else 2 * ((a : Int) - b).natAbs)
  refine ⟨by simp [encodeSegment], fun c hc => ?_⟩
  simp only [encodeSegment, List.mem_append, List.mem_cons] at hc
  rcases hc with (hc | rfl | hc) | hc
  · exact (hdigits _ _).2 c hc
  · decide
  · exact (hdigits _ _).2 c hc
  · exact (hdigits _ _).2 c hc

/-- A segment does not start like a new line. -/
theorem encodeSegment_head (last s : Segment) :
    ∃ c rest, encodeSegment last s = c :: rest ∧ c ≠ ';' := by
  obtain ⟨hfilled, hdigits⟩ := encodeSegment_digits last s
  obtain ⟨c, rest, hhead⟩ := List.exists_cons_of_ne_nil hfilled
  refine ⟨c, rest, hhead, ?_⟩
  rintro rfl
  exact absurd (hdigits ';' (by rw [hhead]; exact List.mem_cons_self)) (by decide)

/-- What is written of segments is digits, commas and semicolons. -/
theorem encodeSegments_plain (isFirst : Bool) (last : Segment) (segments : List Segment) :
    ∀ c ∈ encodeSegments isFirst last segments, c ∈ ',' :: ';' :: base64 := by
  induction segments generalizing isFirst last with
  | nil => simp [encodeSegments]
  | cons s segments ih =>
    intro c hc
    simp only [encodeSegments, List.mem_append] at hc
    rcases hc with (hc | hc) | hc
    · have hmark : c = ',' ∨ c = ';' := by
        split at hc
        · split at hc
          · cases hc
          · exact .inl (List.mem_singleton.mp hc)
        · exact .inr (List.eq_of_mem_replicate hc)
      rcases hmark with rfl | rfl <;> simp
    · have := (encodeSegment_digits last s).2 c hc
      simp [this]
    · exact ih false s c hc

/-- Semicolons move on to a line. -/
theorem decodeFrom_semicolons (behind : Bool) (last : Segment) (n : Nat) (text : List Char) :
    decodeFrom behind last (List.replicate (n + 1) ';' ++ text) =
      decodeFrom false { last with line := last.line + (n + 1), column := 0 } text := by
  induction n generalizing behind last with
  | zero => simp [decodeFrom]
  | succ n ih =>
    rw [List.replicate_succ, List.cons_append, decodeFrom, if_pos rfl, ih]
    simp only [Nat.add_assoc, Nat.add_comm 1]

theorem decodeFrom_segment {behind : Bool} {last s : Segment}
    (hc : c ≠ ';') (hcomma : behind = true → c = ',')
    (hread : readSegment last (if behind then text else c :: text) = some (s, rest)) :
    decodeFrom behind last (c :: text) = (decodeFrom true s rest).map (s :: ·) := by
  have hno : ¬ (behind && c != ',') = true := by
    simpa using hcomma
  rw [decodeFrom, if_neg hc, if_neg hno]
  split
  · rename_i hnone
    rw [hread] at hnone
    cases hnone
  · rename_i s' rest' hsome
    rw [hread] at hsome
    cases hsome
    rfl

/-- Segments in order are read back. -/
theorem decodeFrom_encodeSegments (isFirst : Bool) (last : Segment) (segments : List Segment)
    (hlines : (last :: segments).Pairwise fun a b => a.line ≤ b.line) :
    decodeFrom (!isFirst) last (encodeSegments isFirst last segments) = some segments := by
  induction segments generalizing isFirst last with
  | nil => simp [encodeSegments, decodeFrom]
  | cons s segments ih =>
    obtain ⟨hlast, hrest⟩ := List.pairwise_cons.mp hlines
    have hnext : decodeFrom true s (encodeSegments false s segments) = some segments :=
      ih false s hrest
    obtain ⟨c, tail, hencode, hc⟩ := encodeSegment_head last s
    have hread := readSegment_encodeSegment last s (encodeSegments false s segments)
    rw [hencode, List.cons_append] at hread
    rw [encodeSegments, hencode, List.append_assoc, List.cons_append]
    -- on the line of the last segment a comma stands in front, else a semicolon for each new line
    by_cases hline : s.line = last.line
    · rw [Segment.onLine, if_pos hline] at hread
      rw [if_pos (beq_iff_eq.mpr hline)]
      cases isFirst with
      | true =>
        rw [if_pos rfl, List.nil_append, decodeFrom_segment hc (by simp) hread, hnext]
        rfl
      | false =>
        rw [if_neg Bool.false_ne_true, List.singleton_append,
          decodeFrom_segment (by decide) (fun _ => rfl) hread, hnext]
        rfl
    · obtain ⟨n, hn⟩ : ∃ n, s.line = last.line + (n + 1) := by
        have := hlast s List.mem_cons_self
        exact ⟨s.line - last.line - 1, by omega⟩
      rw [Segment.onLine, if_neg hline] at hread
      rw [if_neg (by simpa using hline), show s.line - last.line = n + 1 by omega,
        decodeFrom_semicolons, ← hn, decodeFrom_segment hc (by simp) hread, hnext]
      rfl

end Segments

section Maps

variable {source : List Char} {s : EditSet} {out : Spliced}

def segmentOf (source : List Char) (m : Mapping) : Segment :=
  { line := m.line, column := m.column, sourceLine := (Text.sourcePlace source m.offset).line
    sourceColumn := (Text.sourcePlace source m.offset).column }

theorem segment?_eq {m : Mapping} (h : Text.charAt? m.offset source = some c) :
    segment? source m = some (segmentOf source m) := by
  obtain ⟨front, back, rfl, hoffset⟩ := Text.charAt?_eq_some_iff.mp h
  have hplace := Text.placeAt_eq front (List.cons_ne_nil c back)
  have hsplit := Text.splitAt?_append front (c :: back)
  rw [segment?, segmentOf, ← hoffset, hplace, Text.sourcePlace, hsplit]
  simp

theorem withoutRepeats_eq {segments : List Segment} (h : segments.Pairwise (· ≠ ·)) :
    withoutRepeats segments = segments := by
  fun_induction withoutRepeats segments with
  | case1 a b rest heq ih =>
    exact absurd (eq_of_beq heq) ((List.pairwise_cons.mp h).1 b List.mem_cons_self)
  | case2 a b rest hne ih => rw [ih (List.pairwise_cons.mp h).2]
  | case3 segments hshort => rfl

/-- Mappings that increase are neither moved nor dropped. -/
theorem segments_eq (hbuilt : s.Built) (h : s.apply source = .ok out) :
    withoutRepeats ((out.mappings.filterMap (segment? source)).mergeSort inOrder) =
      out.mappings.map (segmentOf source) := by
  -- each mapping belongs to a character of the source, so that it has a line
  have hmap : out.mappings.filterMap (segment? source) = out.mappings.map (segmentOf source) := by
    rw [← List.filterMap_eq_map]
    refine List.filterMap_congr fun m hm => ?_
    obtain ⟨X, c, Y, hsplit, _⟩ :=
      Splice.mem_fullMappings ((Splice.apply_mappings_sublist hbuilt h).subset hm)
    have hc := (Splice.mem_origins (x := (c, some m.offset)) (by rw [hsplit]; simp) rfl).1
    exact segment?_eq hc
  have hincreasing := Splice.apply_mappings_increasing hbuilt h
  have horder : (out.mappings.map (segmentOf source)).Pairwise (inOrder · · = true) := by
    refine List.pairwise_map.mpr (hincreasing.imp ?_)
    rintro a b ⟨hplace, _⟩
    simp only [Splice.Place.Before, Mapping.place] at hplace
    simp only [inOrder, Bool.or_eq_true, Bool.and_eq_true, decide_eq_true_eq, beq_iff_eq]
    simp only [segmentOf]
    omega
  have hdistinct : (out.mappings.map (segmentOf source)).Pairwise (· ≠ ·) := by
    refine List.pairwise_map.mpr (hincreasing.imp ?_)
    rintro a b ⟨hplace, _⟩ heq
    simp only [segmentOf, Segment.mk.injEq] at heq
    simp only [Splice.Place.Before, Mapping.place] at hplace
    omega
  rw [hmap, List.mergeSort_of_pairwise horder, withoutRepeats_eq hdistinct]

theorem withoutMark_eq (h : source.head?.map Char.toNat ≠ some 0xfeff) :
    Text.withoutMark source = source := by
  unfold Text.withoutMark
  split
  · rw [if_neg (by simpa using h)]
  · rfl

theorem escape_plain (h : ∀ c ∈ text, Json.escapeChar c = [c]) :
    text.flatMap Json.escapeChar = text := by
  induction text with
  | nil => rfl
  | cons c text ih =>
    rw [List.flatMap_cons, h c List.mem_cons_self, ih fun d hd => h d (List.mem_cons_of_mem c hd)]
    rfl

theorem escapeChar_plain (h : c ∈ ',' :: ';' :: base64) : Json.escapeChar c = [c] := by
  have hall : ((',' :: ';' :: base64).all fun d => Json.escapeChar d == [d]) = true := by
    decide +kernel
  exact beq_iff_eq.mp (List.all_eq_true.mp hall c h)

/-- The text of a map around the text of its mappings, which has nothing to escape. -/
theorem compact_map (filename text : String) (hplain : ∀ c ∈ text.toList, Json.escapeChar c = [c]) :
    Json.compact (.obj [("version", .nat 3), ("sources", .arr [.str filename]), ("names", .arr []),
        ("mappings", .str text)]) =
      "\x7b\"version\":3,\"sources\":[" ++ Json.quote filename ++
        "],\"names\":[],\"mappings\":\"" ++ text ++ "\"\x7d" := by
  have hquote : Json.quote text = "\"" ++ text ++ "\"" := by
    rw [Json.quote, escape_plain hplain, String.ofList_toList]
  simp only [Json.compact, Json.compactFields, Json.compactItems, hquote]
  rw [← String.toList_inj]
  simp only [String.toList_append, List.append_assoc]
  rfl

/-- The map of a result that was put together from edits is an object whose mappings, which have
nothing to escape, decode to one segment for each mapping, in order: its place in the result, and the
line and the column of its offset in the source. -/
theorem render_decodes (filename : String) (source : List Char)
    (hmark : source.head?.map Char.toNat ≠ some 0xfeff) (s : EditSet) (hbuilt : s.Built)
    (out : Spliced) (h : s.apply source = .ok out) (hsome : out.mappings ≠ []) :
    ∃ text : String, render filename source out.mappings =
        "\x7b\"version\":3,\"sources\":[" ++ Json.quote filename ++
          "],\"names\":[],\"mappings\":\"" ++ text ++ "\"\x7d" ∧
      '"' ∉ text.toList ∧ '\\' ∉ text.toList ∧
      decode text.toList = some (out.mappings.map fun m =>
        { line := m.line, column := m.column
          sourceLine := (Text.sourcePlace source m.offset).line
          sourceColumn := (Text.sourcePlace source m.offset).column }) := by
  have hlines : (⟨0, 0, 0, 0⟩ :: out.mappings.map (segmentOf source)).Pairwise
      fun a b => a.line ≤ b.line := by
    refine List.pairwise_cons.mpr ⟨fun b _ => Nat.zero_le _, List.pairwise_map.mpr ?_⟩
    refine (Splice.apply_mappings_increasing hbuilt h).imp ?_
    rintro a b ⟨hplace, _⟩
    simp only [Splice.Place.Before, Mapping.place] at hplace
    simp only [segmentOf]
    omega
  let encoded := encodeSegments true ⟨0, 0, 0, 0⟩ (out.mappings.map (segmentOf source))
  have hplain := encodeSegments_plain true ⟨0, 0, 0, 0⟩ (out.mappings.map (segmentOf source))
  refine ⟨String.ofList encoded, ?_, ?_, ?_, ?_⟩
  · rw [← compact_map filename _
      (by simpa only [String.toList_ofList] using fun c hc => escapeChar_plain (hplain c hc))]
    simp only [render, withoutMark_eq hmark, segments_eq hbuilt h, List.isEmpty_iff, hsome, if_false,
      encoded]
  · simp only [String.toList_ofList]
    exact fun hc => absurd (escapeChar_plain (hplain _ hc)) (by decide)
  · simp only [String.toList_ofList]
    exact fun hc => absurd (escapeChar_plain (hplain _ hc)) (by decide)
  · simp only [String.toList_ofList]
    exact decodeFrom_encodeSegments true _ _ hlines

/-- A text with lines that end in both ways and a character of two units, in which a line is inserted
in front and something behind that character. -/
theorem render_decodes_lines : ∃ text : String,
    render "a.ts" "a\r\nñ😀b\rc".toList
        [⟨1, 0, 0⟩, ⟨2, 0, 3⟩, ⟨2, 5, 9⟩] =
      "\x7b\"version\":3,\"sources\":[" ++ Json.quote "a.ts" ++
        "],\"names\":[],\"mappings\":\"" ++ text ++ "\"\x7d" ∧
    decode text.toList = some [⟨1, 0, 0, 0⟩, ⟨2, 0, 1, 0⟩, ⟨2, 5, 1, 3⟩] := by
  have happly : ((({} : EditSet).insertBefore 0 "x\n").insertAfter 9 ".v").apply
      "a\r\nñ😀b\rc".toList = .ok ⟨"x\na\r\nñ😀.vb\rc".toList,
        [⟨1, 0, 0⟩, ⟨2, 0, 3⟩, ⟨2, 5, 9⟩]⟩ := by cbv
  obtain ⟨text, hrender, _, _, hdecode⟩ := render_decodes "a.ts" _ (by decide) _
    (.insertAfter (.insertBefore .empty 0 "x\n") 9 ".v") _ happly (by simp)
  exact ⟨text, hrender, hdecode.trans (by cbv)⟩

end Maps

end RefSugar.SourceMap
