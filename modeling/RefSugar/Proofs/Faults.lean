import Mathlib
import RefSugar.Proofs.Placement

/-! Which sets of edits can be applied, and which fault of the others is told. Ranges are compared
with their neighbours in a sorted list; what is proved speaks of any two edits that share a byte. Of
several faults, those of single edits come first in the order of issue, then the first neighbours
that overlap, then the insertion with the smallest offset. -/
namespace RefSugar.Splice

variable {e f : Edit} {err : EditError} {pos : Nat}

structure Fits (source : List Char) (e : Edit) : Prop where
  ordered : e.start ≤ e.stop
  within : e.stop ≤ Text.width source
  start_boundary : Text.isBoundary e.start source = true
  stop_boundary : Text.isBoundary e.stop source = true

def Takes (e : Edit) (p : Nat) : Prop :=
  ∃ r, replacement? e = some r ∧ r.start ≤ p ∧ p < r.stop

def Encloses (f : Edit) (pos : Nat) : Prop :=
  ∃ r, replacement? f = some r ∧ r.start < pos ∧ pos < r.stop

def BytesApart (edits : List Edit) : Prop :=
  edits.Pairwise fun e f => ∀ p, ¬ (Takes e p ∧ Takes f p)

/-- All edits fit, no two of them take the same byte, and nothing is inserted inside of what is
replaced. -/
structure Valid (source : List Char) (edits : List Edit) : Prop where
  fits : ∀ e ∈ edits, Fits source e
  apart : BytesApart edits
  outside : ∀ e ∈ edits, ∀ pos, insertPos? e = some pos → ∀ f ∈ edits, ¬ Encloses f pos

/-- The ranges of edits by their start, and those with the same start in the order of issue. -/
structure ByStart (edits : List Edit) (ranges : List Replacement) : Prop where
  sorted : ranges.Pairwise fun r q => r.start ≤ q.start
  ties : ∀ p, ranges.filter (·.start == p) = (edits.filterMap replacement?).filter (·.start == p)

inductive FirstFault (source : List Char) (edits : List Edit) : EditError → Prop where
  | outOfBounds {front behind : List Edit} {e : Edit} (hsplit : edits = front ++ e :: behind)
    (hfront : ∀ f ∈ front, Fits source f) (hbounds : Text.width source < e.stop) :
    FirstFault source edits (.outOfBounds e.start e.stop (Text.width source))
  | startInCharacter {front behind : List Edit} {e : Edit} (hsplit : edits = front ++ e :: behind)
    (hfront : ∀ f ∈ front, Fits source f) (hbounds : e.stop ≤ Text.width source)
    (hstart : Text.isBoundary e.start source = false) :
    FirstFault source edits (.notCharBoundary e.start)
  | stopInCharacter {front behind : List Edit} {e : Edit} (hsplit : edits = front ++ e :: behind)
    (hfront : ∀ f ∈ front, Fits source f) (hbounds : e.stop ≤ Text.width source)
    (hstart : Text.isBoundary e.start source = true)
    (hstop : Text.isBoundary e.stop source = false) :
    FirstFault source edits (.notCharBoundary e.stop)
  | overlap {front behind : List Replacement} {a b : Replacement}
    (hfits : ∀ e ∈ edits, Fits source e) (hranges : ByStart edits (front ++ a :: b :: behind))
    (hfront : (front ++ [a]).IsChain fun r q => r.stop ≤ q.start) (hoverlap : b.start < a.stop) :
    FirstFault source edits (.overlap (a.start, a.stop) (b.start, b.stop))
  | insertInsideRange {e f : Edit} {pos : Nat} (hfits : ∀ e ∈ edits, Fits source e)
    (hapart : BytesApart edits) (he : e ∈ edits) (hpos : insertPos? e = some pos)
    (hfirst : ∀ e' ∈ edits, ∀ pos', insertPos? e' = some pos' → pos' < pos →
      ∀ f' ∈ edits, ¬ Encloses f' pos')
    (hf : f ∈ edits) (hinside : Encloses f pos) :
    FirstFault source edits (.insertInsideRange pos (f.start, f.stop))

section Sorting

/-- Sorting keeps elements in order that are in order already. -/
theorem filter_mergeSort {α : Type} {le : α → α → Bool} (htrans : ∀ a b c, le a b → le b c → le a c)
    (htotal : ∀ a b, le a b || le b a) {keep : α → Bool} {l : List α}
    (hkeep : (l.filter keep).Pairwise fun a b => le a b = true) :
    (l.mergeSort le).filter keep = l.filter keep := by
  have hsub : (l.filter keep).Sublist (l.mergeSort le) :=
    List.sublist_mergeSort htrans htotal hkeep List.filter_sublist
  have hfiltered : (l.filter keep).Sublist ((l.mergeSort le).filter keep) := by
    have h := hsub.filter keep
    rwa [List.filter_filter, show (fun a => keep a && keep a) = keep by funext a; simp] at h
  have hlength : (l.filter keep).length = ((l.mergeSort le).filter keep).length :=
    ((List.mergeSort_perm l le).filter keep).length_eq.symm
  exact (hfiltered.eq_of_length hlength).symm

/-- The replacements are the ranges, sorted by their start. -/
theorem replacements_byStart (edits : List Edit) : ByStart edits (replacements edits) where
  sorted := replacements_by_start edits
  ties := by
    intro p
    apply filter_mergeSort
    · intro a b c
      simp only [decide_eq_true_eq]
      omega
    · intro a b
      simp only [Bool.or_eq_true, decide_eq_true_eq]
      omega
    · refine List.pairwise_of_forall_mem_list fun a ha b hb => ?_
      have hstart := (List.mem_filter.mp ha).2
      have hstart' := (List.mem_filter.mp hb).2
      simp only [beq_iff_eq, decide_eq_true_eq] at hstart hstart' ⊢
      omega

/-- A list that is sorted by start is known by what it holds at each start. -/
theorem eq_of_sorted_of_ties {l l' : List Replacement}
    (hl : l.Pairwise fun r q => r.start ≤ q.start) (hl' : l'.Pairwise fun r q => r.start ≤ q.start)
    (hties : ∀ p, l.filter (·.start == p) = l'.filter (·.start == p)) : l = l' := by
  induction l generalizing l' with
  | nil =>
    cases l' with
    | nil => rfl
    | cons b l' => simpa using hties b.start
  | cons a l ih =>
    cases l' with
    | nil => simpa using hties a.start
    | cons b l' =>
      obtain ⟨ha, hrest⟩ := List.pairwise_cons.mp hl
      obtain ⟨hb, hrest'⟩ := List.pairwise_cons.mp hl'
      -- each of the two first elements occurs in the other list, so that they start together
      have hmem (x : Replacement) : x ∈ a :: l ↔ x ∈ b :: l' := by
        have h := congrArg (x ∈ ·) (hties x.start)
        simpa only [List.mem_filter, beq_self_eq_true, and_true, eq_iff_iff] using h
      have hab : a.start ≤ b.start := by
        rcases List.mem_cons.mp ((hmem b).mpr List.mem_cons_self) with h | h
        · exact Nat.le_of_eq (congrArg Replacement.start h.symm)
        · exact ha b h
      have hba : b.start ≤ a.start := by
        rcases List.mem_cons.mp ((hmem a).mp List.mem_cons_self) with h | h
        · exact Nat.le_of_eq (congrArg Replacement.start h.symm)
        · exact hb a h
      have hstart : a.start = b.start := Nat.le_antisymm hab hba
      have hfirst : a = b := by
        have h := hties a.start
        rw [List.filter_cons_of_pos (by simp), List.filter_cons_of_pos (by simp [hstart])] at h
        exact (List.cons.inj h).1
      subst hfirst
      refine congrArg (a :: ·) (ih hrest hrest' ?_)
      intro p
      have h := hties p
      by_cases hp : a.start = p
      · rw [List.filter_cons_of_pos (by simpa using hp),
          List.filter_cons_of_pos (by simpa using hp)] at h
        exact (List.cons.inj h).2
      · rwa [List.filter_cons_of_neg (by simpa using hp),
          List.filter_cons_of_neg (by simpa using hp)] at h

theorem ByStart.eq_replacements {edits : List Edit} {ranges : List Replacement}
    (h : ByStart edits ranges) : ranges = replacements edits := by
  have hsorted := replacements_byStart edits
  exact eq_of_sorted_of_ties h.sorted hsorted.sorted fun p => (h.ties p).trans (hsorted.ties p).symm

end Sorting

section Single

variable {source : List Char} {edits : List Edit}

theorem fits_iff (source : List Char) (e : Edit) : Fits source e ↔ editFault source e = none := by
  rw [editFault_eq_none_iff]
  constructor
  · intro h
    exact ⟨h.ordered, h.start_boundary, h.stop_boundary⟩
  · rintro ⟨hordered, hstart, hstop⟩
    exact ⟨hordered, Text.isBoundary_le_width hstop, hstart, hstop⟩

/-- What is told of a single edit that ends behind its start. -/
theorem editFault_eq_some_iff (hordered : e.start ≤ e.stop) :
    editFault source e = some err ↔
      (Text.width source < e.stop ∧ err = .outOfBounds e.start e.stop (Text.width source)) ∨
      (e.stop ≤ Text.width source ∧ Text.isBoundary e.start source = false ∧
        err = .notCharBoundary e.start) ∨
      (e.stop ≤ Text.width source ∧ Text.isBoundary e.start source = true ∧
        Text.isBoundary e.stop source = false ∧ err = .notCharBoundary e.stop) := by
  have hle : ¬ e.stop < e.start := Nat.not_lt.mpr hordered
  unfold editFault
  by_cases hbounds : Text.width source < e.stop
  · have hnot : ¬ e.stop ≤ Text.width source := Nat.not_le.mpr hbounds
    simp [hbounds, hnot, @eq_comm _ err]
  · have hin : e.stop ≤ Text.width source := Nat.not_lt.mp hbounds
    cases hstart : Text.isBoundary e.start source with
    | false => simp [hle, hbounds, hin, @eq_comm _ err]
    | true =>
      cases hstop : Text.isBoundary e.stop source with
      | false => simp [hle, hbounds, hin, @eq_comm _ err]
      | true => simp [hle, hbounds]

/-- The first edit that does not fit is told, for the reason that is looked at first. -/
theorem firstFault_of_single (hordered : ∀ e ∈ edits, e.start ≤ e.stop)
    (h : edits.findSome? (editFault source) = some err) : FirstFault source edits err := by
  obtain ⟨front, e, behind, hsplit, herr, hfront⟩ := List.findSome?_eq_some_iff.mp h
  have he : e ∈ edits := by rw [hsplit]; exact List.mem_append_right _ List.mem_cons_self
  have hfits : ∀ f ∈ front, Fits source f := fun f hf => (fits_iff source f).mpr (hfront f hf)
  rcases (editFault_eq_some_iff (hordered e he)).mp herr with
    ⟨hbounds, rfl⟩ | ⟨hbounds, hstart, rfl⟩ | ⟨hbounds, hstart, hstop, rfl⟩
  · exact .outOfBounds hsplit hfits hbounds
  · exact .startInCharacter hsplit hfits hbounds hstart
  · exact .stopInCharacter hsplit hfits hbounds hstart hstop

theorem single_of_split {front behind : List Edit}
    (hsplit : edits = front ++ e :: behind) (hfront : ∀ f ∈ front, Fits source f)
    (herr : editFault source e = some err) : edits.findSome? (editFault source) = some err := by
  apply List.findSome?_eq_some_iff.mpr
  exact ⟨front, e, behind, hsplit, herr, fun f hf => (fits_iff source f).mp (hfront f hf)⟩

theorem single_eq_none_iff :
    edits.findSome? (editFault source) = none ↔ ∀ e ∈ edits, Fits source e := by
  simp only [List.findSome?_eq_none_iff, fits_iff]

end Single

section Neighbours

/-- The neighbours that are told are the first ones that overlap. -/
theorem overlapFault_eq_some_iff {ranges : List Replacement} :
    overlapFault ranges = some err ↔ ∃ front a b behind, ranges = front ++ a :: b :: behind ∧
      ((front ++ [a]).IsChain fun r q => r.stop ≤ q.start) ∧ b.start < a.stop ∧
      err = .overlap (a.start, a.stop) (b.start, b.stop) := by
  induction ranges with
  | nil => simp [overlapFault]
  | cons a ranges ih =>
    cases ranges with
    | nil =>
      simp only [overlapFault, reduceCtorEq, false_iff]
      rintro ⟨front, x, y, behind, h, -⟩
      have hlength := congrArg List.length h
      simp only [List.length_append, List.length_cons, List.length_nil] at hlength
      omega
    | cons b rest =>
      rw [overlapFault]
      by_cases hab : b.start < a.stop
      · rw [if_pos hab]
        constructor
        · intro h
          exact ⟨[], a, b, rest, rfl, List.isChain_singleton a, hab, (Option.some.inj h).symm⟩
        · rintro ⟨front, x, y, behind, hsplit, hchain, hxy, rfl⟩
          cases front with
          | nil =>
            obtain ⟨rfl, hrest⟩ := List.cons.inj hsplit
            obtain ⟨rfl, -⟩ := List.cons.inj hrest
            rfl
          | cons c front =>
            -- `a` and `b` would be neighbours that do not overlap
            obtain ⟨rfl, hrest⟩ := List.cons.inj hsplit
            have hle : a.stop ≤ b.start := by
              cases front with
              | nil =>
                obtain ⟨rfl, -⟩ := List.cons.inj hrest
                exact (List.isChain_cons_cons.mp hchain).1
              | cons d front =>
                obtain ⟨rfl, -⟩ := List.cons.inj hrest
                exact (List.isChain_cons_cons.mp hchain).1
            omega
      · rw [if_neg hab, ih]
        constructor
        · rintro ⟨front, x, y, behind, hsplit, hchain, hxy, herr⟩
          refine ⟨a :: front, x, y, behind, by rw [hsplit]; rfl, ?_, hxy, herr⟩
          cases front with
          | nil =>
            obtain ⟨rfl, -⟩ := List.cons.inj hsplit
            exact List.isChain_cons_cons.mpr ⟨Nat.not_lt.mp hab, hchain⟩
          | cons d front =>
            obtain ⟨rfl, -⟩ := List.cons.inj hsplit
            exact List.isChain_cons_cons.mpr ⟨Nat.not_lt.mp hab, hchain⟩
        · rintro ⟨front, x, y, behind, hsplit, hchain, hxy, herr⟩
          cases front with
          | nil =>
            obtain ⟨rfl, hrest⟩ := List.cons.inj hsplit
            obtain ⟨rfl, -⟩ := List.cons.inj hrest
            exact absurd hxy hab
          | cons c front =>
            obtain ⟨rfl, hrest⟩ := List.cons.inj hsplit
            exact ⟨front, x, y, behind, hrest, hchain.tail, hxy, herr⟩

/-- Filled ranges share a byte unless one of them ends in front of the other. -/
theorem apart_iff_bytes (he : ∀ r, replacement? e = some r → r.start < r.stop)
    (hf : ∀ r, replacement? f = some r → r.start < r.stop) :
    Apart e f ↔ ∀ p, ¬ (Takes e p ∧ Takes f p) := by
  constructor
  · rintro h p ⟨⟨r, hr, hrlo, hrhi⟩, q, hq, hqlo, hqhi⟩
    have := h r hr q hq
    omega
  · intro h r hr q hq
    have hrf := he r hr
    have hqf := hf q hq
    by_contra hnot
    -- the later of the two starts lies in both ranges
    exact h (max r.start q.start) ⟨⟨r, hr, by omega, by omega⟩, q, hq, by omega, by omega⟩

theorem bytesApart_iff {edits : List Edit} (hfilled : RangesFilled edits) :
    BytesApart edits ↔ edits.Pairwise Apart := by
  constructor
  · intro h
    refine h.imp_of_mem ?_
    intro e f he hf hef
    exact (apart_iff_bytes (hfilled e he) (hfilled f hf)).mpr hef
  · intro h
    refine h.imp_of_mem ?_
    intro e f he hf hef
    exact (apart_iff_bytes (hfilled e he) (hfilled f hf)).mp hef

end Neighbours

section Inside

variable {edits : List Edit}

theorem clear_iff :
    Clear e f ↔ ∀ pos, insertPos? e = some pos → ¬ Encloses f pos := by
  constructor
  · rintro h pos hpos ⟨r, hr, hlo, hhi⟩
    have := h pos hpos r hr
    omega
  · intro h pos hpos r hr
    by_contra hnot
    exact h pos hpos ⟨r, hr, by omega, by omega⟩

/-- The search among the ranges finds the one that encloses an offset. -/
theorem find?_enclosing {r : Replacement}
    (h : (replacements edits).find? (fun r => r.start < pos && pos < r.stop) = some r) :
    ∃ f ∈ edits, replacement? f = some r ∧ r.start < pos ∧ pos < r.stop := by
  obtain ⟨f, hf, hr⟩ := mem_replacements.mp (List.mem_of_find?_eq_some h)
  have hinside := List.find?_some h
  simp only [Bool.and_eq_true, decide_eq_true_eq] at hinside
  exact ⟨f, hf, hr, hinside⟩

theorem find?_enclosing_eq_none_iff :
    (replacements edits).find? (fun r => r.start < pos && pos < r.stop) = none ↔
      ∀ f ∈ edits, ¬ Encloses f pos := by
  simp only [List.find?_eq_none, mem_replacements, Bool.and_eq_true, decide_eq_true_eq]
  constructor
  · rintro h f hf ⟨r, hr, hinside⟩
    exact h r ⟨f, hf, hr⟩ hinside
  · rintro h r ⟨f, hf, hr⟩ hinside
    exact h f hf ⟨r, hr, hinside⟩

theorem mem_insertPositions :
    pos ∈ insertPositions edits ↔ ∃ e ∈ edits, insertPos? e = some pos := by
  rw [insertPositions, mem_increasing, List.mem_filterMap]

/-- The offset that is told is the smallest one that lies inside a range. -/
theorem insideFault_eq_some
    (h : insideFault (replacements edits) (insertPositions edits) = some err) :
    ∃ pos f, (∃ e ∈ edits, insertPos? e = some pos) ∧
      (∀ e' ∈ edits, ∀ pos', insertPos? e' = some pos' → pos' < pos →
        ∀ f' ∈ edits, ¬ Encloses f' pos') ∧
      f ∈ edits ∧ Encloses f pos ∧ err = .insertInsideRange pos (f.start, f.stop) := by
  obtain ⟨front, pos, behind, hsplit, herr, hfront⟩ := List.findSome?_eq_some_iff.mp h
  obtain ⟨r, hfind, rfl⟩ := Option.map_eq_some_iff.mp herr
  obtain ⟨f, hf, hr, hinside⟩ := find?_enclosing hfind
  have hpos : pos ∈ insertPositions edits := by
    rw [hsplit]
    exact List.mem_append_right _ List.mem_cons_self
  have hstrict : (front ++ pos :: behind).Pairwise (· < ·) := hsplit ▸ increasing_strict _
  have hends : r.start = f.start ∧ r.stop = f.stop := by
    cases f <;> simp_all [replacement?, Edit.start, Edit.stop] <;> simp [← hr]
  refine ⟨pos, f, mem_insertPositions.mp hpos, ?_, hf, ⟨r, hr, hinside⟩, by rw [hends.1, hends.2]⟩
  intro e' he' pos' hpos' hlt
  -- a smaller offset stands in front, where the search found nothing
  have hmem : pos' ∈ front ++ pos :: behind := hsplit ▸ mem_insertPositions.mpr ⟨e', he', hpos'⟩
  have hin : pos' ∈ front := by
    rcases List.mem_append.mp hmem with hmem | hmem
    · exact hmem
    · rcases List.mem_cons.mp hmem with rfl | hmem
      · omega
      · have := (List.pairwise_cons.mp (List.pairwise_append.mp hstrict).2.1).1 pos' hmem
        omega
  exact find?_enclosing_eq_none_iff.mp (Option.map_eq_none_iff.mp (hfront pos' hin))

/-- Among ranges that are apart, at most one encloses an offset. -/
theorem encloses_unique (hapart : BytesApart edits) {g : Edit} (hf : f ∈ edits) (hg : g ∈ edits)
    (hfpos : Encloses f pos) (hgpos : Encloses g pos) : f = g := by
  by_contra hne
  obtain ⟨r, hr, hrlo, hrhi⟩ := hfpos
  obtain ⟨q, hq, hqlo, hqhi⟩ := hgpos
  have hboth : Takes f pos ∧ Takes g pos :=
    ⟨⟨r, hr, Nat.le_of_lt hrlo, hrhi⟩, q, hq, Nat.le_of_lt hqlo, hqhi⟩
  have hsymm : Std.Symm fun e f : Edit => ∀ p, ¬ (Takes e p ∧ Takes f p) :=
    ⟨fun e f h p hp => h p hp.symm⟩
  have hnot : ∀ p, ¬ (Takes f p ∧ Takes g p) := List.Pairwise.forall hapart hf hg hne
  exact hnot pos hboth

end Inside

section Told

variable {source : List Char} {edits : List Edit}

/-- Validity by bytes and by pairs of edits is the same. -/
theorem valid_iff_placed (hfilled : RangesFilled edits) :
    Valid source edits ↔ Placed source edits := by
  constructor
  · intro h
    refine ⟨fun e he => (h.fits e he).ordered, fun e he => (h.fits e he).start_boundary,
      fun e he => (h.fits e he).stop_boundary, (bytesApart_iff hfilled).mp h.apart, ?_⟩
    intro e he f hf
    exact clear_iff.mpr fun pos hpos => h.outside e he pos hpos f hf
  · intro h
    refine ⟨?_, (bytesApart_iff hfilled).mpr h.apart, ?_⟩
    · intro e he
      exact ⟨h.ordered e he, Text.isBoundary_le_width (h.stop_boundary e he), h.start_boundary e he,
        h.stop_boundary e he⟩
    · intro e he pos hpos f hf
      exact clear_iff.mp (h.clear e he f hf) pos hpos

/-- A fault that is found is the first one. -/
theorem firstFault_of_fault (hordered : ∀ e ∈ edits, e.start ≤ e.stop)
    (hfilled : RangesFilled edits) (h : fault source edits = some err) :
    FirstFault source edits err := by
  unfold fault at h
  cases hsingle : edits.findSome? (editFault source) with
  | some single =>
    rw [hsingle, Option.some_or] at h
    exact firstFault_of_single hordered (hsingle.trans h)
  | none =>
    have hfits := single_eq_none_iff.mp hsingle
    rw [hsingle, Option.none_or] at h
    cases hoverlap : overlapFault (replacements edits) with
    | some overlap =>
      rw [hoverlap, Option.some_or] at h
      obtain ⟨front, a, b, behind, hsplit, hchain, hab, rfl⟩ :=
        overlapFault_eq_some_iff.mp (hoverlap.trans h)
      exact .overlap hfits (hsplit ▸ replacements_byStart edits) hchain hab
    | none =>
      have hapart := (overlapFault_replacements_eq_none_iff hfilled).mp hoverlap
      rw [hoverlap, Option.none_or] at h
      obtain ⟨pos, f, ⟨e, he, hpos⟩, hfirst, hf, hinside, rfl⟩ := insideFault_eq_some h
      exact .insertInsideRange hfits ((bytesApart_iff hfilled).mpr hapart) he hpos hfirst hf hinside

/-- The first fault is found. -/
theorem fault_of_firstFault (hordered : ∀ e ∈ edits, e.start ≤ e.stop)
    (hfilled : RangesFilled edits) (h : FirstFault source edits err) :
    fault source edits = some err := by
  have hmem {front behind : List Edit} {e : Edit} (hsplit : edits = front ++ e :: behind) :
      e.start ≤ e.stop := by
    apply hordered
    rw [hsplit]
    exact List.mem_append_right _ List.mem_cons_self
  unfold fault
  cases h with
  | outOfBounds hsplit hfront hbounds =>
    have herr := (editFault_eq_some_iff (hmem hsplit)).mpr (.inl ⟨hbounds, rfl⟩)
    rw [single_of_split hsplit hfront herr, Option.some_or]
  | startInCharacter hsplit hfront hbounds hstart =>
    have herr := (editFault_eq_some_iff (hmem hsplit)).mpr (.inr (.inl ⟨hbounds, hstart, rfl⟩))
    rw [single_of_split hsplit hfront herr, Option.some_or]
  | stopInCharacter hsplit hfront hbounds hstart hstop =>
    have herr := (editFault_eq_some_iff (hmem hsplit)).mpr
      (.inr (.inr ⟨hbounds, hstart, hstop, rfl⟩))
    rw [single_of_split hsplit hfront herr, Option.some_or]
  | @overlap front behind a b hfits hranges hchain hab =>
    have hfound := overlapFault_eq_some_iff.mpr
      ⟨front, a, b, behind, hranges.eq_replacements.symm, hchain, hab, rfl⟩
    rw [single_eq_none_iff.mpr hfits, Option.none_or, hfound, Option.some_or]
  | @insertInsideRange e f pos hfits hapart he hpos hfirst hf hinside =>
    have hnone := (overlapFault_replacements_eq_none_iff hfilled).mpr
      ((bytesApart_iff hfilled).mp hapart)
    rw [single_eq_none_iff.mpr hfits, Option.none_or, hnone, Option.none_or]
    -- something is found, and the smallest offset and its range are unique
    cases hfound : insideFault (replacements edits) (insertPositions edits) with
    | none =>
      have hclear := (insideFault_eq_none_iff edits).mp hfound e he f hf
      exact absurd hinside (clear_iff.mp hclear pos hpos)
    | some err =>
      obtain ⟨pos', f', ⟨e', he', hpos'⟩, hfirst', hf', hinside', rfl⟩ := insideFault_eq_some hfound
      have hge : ¬ pos' < pos := fun hlt => hfirst e' he' pos' hpos' hlt f' hf' hinside'
      have hle : ¬ pos < pos' := fun hlt => hfirst' e he pos hpos hlt f hf hinside
      obtain rfl : pos = pos' := by omega
      rw [encloses_unique hapart hf' hf hinside' hinside]

end Told

theorem ordered_of_filled {edits : List Edit} (hfilled : RangesFilled edits) :
    ∀ e ∈ edits, e.start ≤ e.stop := by
  intro e he
  cases e with
  | insertBefore pos text => exact Nat.le_refl pos
  | insertAfter pos text => exact Nat.le_refl pos
  | remove start stop => exact Nat.le_of_lt (hfilled _ he _ rfl)
  | overwrite start stop text => exact Nat.le_of_lt (hfilled _ he _ rfl)

/-- A set of edits can be applied if and only if it is valid, and of any other set the first fault
is told. -/
theorem apply_ok_or_first_fault (source : List Char) (s : EditSet) (hbuilt : s.Built) :
    ((∃ out, s.apply source = .ok out) ↔ Valid source s.edits) ∧
      ∀ err, s.apply source = .error err ↔ FirstFault source s.edits err := by
  have hfilled := ranges_filled_of_built hbuilt
  have hordered := ordered_of_filled hfilled
  have hvalid := (valid_iff_placed hfilled).trans (@fault_eq_none_iff source _ hfilled).symm
  have hfirst (err : EditError) : fault source s.edits = some err ↔ FirstFault source s.edits err :=
    ⟨firstFault_of_fault hordered hfilled, fault_of_firstFault hordered hfilled⟩
  rw [hvalid]
  simp only [← hfirst]
  unfold EditSet.apply
  cases hfault : fault source s.edits with
  | none => simp
  | some err => simp

/-- A valid set, one whose ranges overlap though an insertion stands inside a range too, and one
with an insertion inside a range only. -/
theorem apply_ok_or_first_fault_sets :
    Valid "abñd".toList
      (((({} : EditSet).remove 2 4).insertAfter 2 ".v").overwrite 0 2 "xy").edits ∧
    FirstFault "abcdef".toList
      (((({} : EditSet).remove 3 5).insertAfter 4 ".v").overwrite 0 4 "x").edits
      (.overlap (0, 4) (3, 5)) ∧
    FirstFault "abcdef".toList
      ((((({} : EditSet).insertBefore 4 "w").remove 3 5).insertAfter 1 ".v").overwrite 0 3
        "x").edits
      (.insertInsideRange 1 (0, 3)) := by
  refine ⟨?_, ?_, ?_⟩
  · refine (apply_ok_or_first_fault "abñd".toList _ ?_).1.mp ⟨_, by cbv⟩
    exact .overwrite (.insertAfter (.remove .empty 2 4) 2 ".v") 0 2 "xy"
  · refine ((apply_ok_or_first_fault "abcdef".toList _ ?_).2 _).mp (by cbv)
    exact .overwrite (.insertAfter (.remove .empty 3 5) 4 ".v") 0 4 "x"
  · refine ((apply_ok_or_first_fault "abcdef".toList _ ?_).2 _).mp (by cbv)
    exact .overwrite (.insertAfter (.remove (.insertBefore .empty 4 "w") 3 5) 1 ".v") 0 3 "x"

end RefSugar.Splice
