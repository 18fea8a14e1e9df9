import Mathlib
import RefSugar.Proofs.Placement

/-! What applying edits gives, offset by offset. Main statement: whenever the edits can be applied,
the result is the concatenation over all offsets of what is inserted, what replaces, and what is
kept there. This holds of the characters together with the offsets they were copied from. -/
namespace RefSugar.Splice

/-- The texts inserted at an offset for what stands in front of it, in the order of issue. -/
def afterAt (edits : List Edit) (p : Nat) : List Char :=
  edits.flatMap fun
    | .insertAfter pos text => if pos = p then text.toList else []
    | _ => []

/-- The texts inserted at an offset for what stands behind it, in the order of issue. -/
def beforeAt (edits : List Edit) (p : Nat) : List Char :=
  edits.flatMap fun
    | .insertBefore pos text => if pos = p then text.toList else []
    | _ => []

/-- The text of the range that starts at an offset, if one does; a removal has none. -/
def replacingAt (edits : List Edit) (p : Nat) : List Char :=
  ((edits.filterMap replacement?).find? (·.start == p)).elim [] Replacement.text

/-- Some edit removes or overwrites the byte at an offset. -/
def isCovered (edits : List Edit) (p : Nat) : Bool :=
  (edits.filterMap replacement?).any fun r => decide (r.start ≤ p) && decide (p < r.stop)

/-- The character of the source that starts at an offset, unless it is covered. -/
def keptAt (source : List Char) (edits : List Edit) (p : Nat) : List Char :=
  if isCovered edits p then [] else (Text.charAt? p source).toList

def addedAt (edits : List Edit) (p : Nat) : List Char :=
  afterAt edits p ++ beforeAt edits p ++ replacingAt edits p

/-- The result of all edits, offset by offset. -/
def byOffset (source : List Char) (edits : List Edit) : List Char :=
  (List.range (Text.width source + 1)).flatMap fun p => addedAt edits p ++ keptAt source edits p

def originsAt (source : List Char) (edits : List Edit) (p : Nat) : List (Char × Option Nat) :=
  (addedAt edits p).map (·, none) ++ (keptAt source edits p).map (·, some p)

def Stretch.origins : Stretch → List (Char × Option Nat)
  | .copied offset text => Text.located offset text
  | .added text => text.map (·, none)

theorem map_fst_pair {α β : Type} (b : β) (l : List α) : (l.map (·, b)).map Prod.fst = l := by
  rw [List.map_map]
  exact List.map_id l

theorem Stretch.origins_fst (part : Stretch) :
    (Stretch.origins part).map Prod.fst = Stretch.text part := by
  cases part with
  | copied offset text => exact Text.located_fst offset text
  | added text => exact map_fst_pair none text

section Texts

variable {source : List Char} {edits : List Edit}

theorem flatten_filterMap {α β : Type} (f : α → Option (List β)) (l : List α) :
    (l.filterMap f).flatten = l.flatMap fun a => (f a).getD [] := by
  induction l with
  | nil => rfl
  | cons a l ih => cases h : f a <;> simp [h, ih]

theorem insertedAt_flatten (edits : List Edit) (p : Nat) :
    (insertedAt edits p).flatten = afterAt edits p ++ beforeAt edits p := by
  rw [insertedAt, List.flatten_append, flatten_filterMap, flatten_filterMap, afterAt, beforeAt]
  congr 2
  · funext e
    cases e <;> grind
  · funext e
    cases e <;> grind

theorem replacement?_start {e : Edit} {r : Replacement} (h : replacement? e = some r) :
    r.start = e.start ∧ r.stop = e.stop := by
  cases e <;> simp_all [replacement?, Edit.start, Edit.stop] <;> subst h <;> simp

/-- Where no edit starts, nothing is added. -/
theorem addedAt_eq_nil {p : Nat} (h : ∀ e ∈ edits, e.start ≠ p) : addedAt edits p = [] := by
  have hafter : afterAt edits p = [] := by
    rw [afterAt, List.flatMap_eq_nil_iff]
    intro e he
    have := h e he
    cases e <;> simp_all [Edit.start]
  have hbefore : beforeAt edits p = [] := by
    rw [beforeAt, List.flatMap_eq_nil_iff]
    intro e he
    have := h e he
    cases e <;> simp_all [Edit.start]
  have hreplacing : (edits.filterMap replacement?).find? (·.start == p) = none := by
    rw [List.find?_eq_none]
    intro r hr
    obtain ⟨e, he, hr⟩ := List.mem_filterMap.mp hr
    have := h e he
    rw [← (replacement?_start hr).1] at this
    simpa using this
  simp [addedAt, hafter, hbefore, replacingAt, hreplacing]

theorem isCovered_iff {p : Nat} :
    isCovered edits p = true ↔ ∃ r ∈ replacements edits, r.start ≤ p ∧ p < r.stop := by
  simp only [isCovered, List.any_eq_true, Bool.and_eq_true, decide_eq_true_eq, List.mem_filterMap,
    mem_replacements]

/-- Any two ranges lie apart, or are the same one. -/
theorem replacements_apart (hfilled : RangesFilled edits) (hplaced : Placed source edits)
    {r q : Replacement} (hr : r ∈ replacements edits) (hq : q ∈ replacements edits) :
    r = q ∨ r.stop ≤ q.start ∨ q.stop ≤ r.start := by
  have hnone := (overlapFault_replacements_eq_none_iff hfilled).mpr hplaced.apart
  have hbehind := (overlapFault_eq_none_iff (by
    intro r hr
    obtain ⟨e, he, hr⟩ := mem_replacements.mp hr
    exact hfilled e he r hr)).mp hnone
  refine List.Pairwise.forall_of_forall_of_flip
    (R := fun r q => r = q ∨ r.stop ≤ q.start ∨ q.stop ≤ r.start) ?_ ?_ ?_ hr hq
  · exact fun r _ => .inl rfl
  · exact hbehind.imp fun h => .inr (.inl h)
  · exact hbehind.imp fun h => .inr (.inr h)

theorem replacement_filled (hfilled : RangesFilled edits) {r : Replacement}
    (hr : r ∈ replacements edits) : r.start < r.stop := by
  obtain ⟨e, he, hr⟩ := mem_replacements.mp hr
  exact hfilled e he r hr

theorem replacement_unique (hfilled : RangesFilled edits) (hplaced : Placed source edits)
    {r q : Replacement} (hr : r ∈ replacements edits) (hq : q ∈ replacements edits)
    (hstart : r.start = q.start) : r = q := by
  have hrf := replacement_filled hfilled hr
  have hqf := replacement_filled hfilled hq
  rcases replacements_apart hfilled hplaced hr hq with h | h | h
  · exact h
  · omega
  · omega

/-- The search among the sorted ranges finds the one that starts at an offset. -/
theorem replacingAt_eq (hfilled : RangesFilled edits) (hplaced : Placed source edits) (p : Nat) :
    replacingAt edits p =
      ((replacements edits).find? (·.start == p)).elim [] Replacement.text := by
  have hmem : ∀ r, r ∈ edits.filterMap replacement? ↔ r ∈ replacements edits := by
    intro r
    rw [mem_replacements, List.mem_filterMap]
  have hfind : (edits.filterMap replacement?).find? (·.start == p) =
      (replacements edits).find? (·.start == p) := by
    cases hsorted : (replacements edits).find? (·.start == p) with
    | none =>
      rw [List.find?_eq_none] at hsorted ⊢
      exact fun r hr => hsorted r ((hmem r).mp hr)
    | some r =>
      cases hissued : (edits.filterMap replacement?).find? (·.start == p) with
      | none =>
        rw [List.find?_eq_none] at hissued
        have hr := List.mem_of_find?_eq_some hsorted
        exact absurd (List.find?_some hsorted) (hissued r ((hmem r).mpr hr))
      | some q =>
        have hr := List.mem_of_find?_eq_some hsorted
        have hq := (hmem q).mp (List.mem_of_find?_eq_some hissued)
        have hrp : r.start = p := by simpa using List.find?_some hsorted
        have hqp : q.start = p := by simpa using List.find?_some hissued
        rw [replacement_unique hfilled hplaced hq hr (hqp.trans hrp.symm)]
  rw [replacingAt, hfind]

/-- No edit starts strictly inside a range. -/
theorem start_outside (hfilled : RangesFilled edits) (hplaced : Placed source edits)
    {r : Replacement} (hr : r ∈ replacements edits) {e : Edit} (he : e ∈ edits)
    (hlt : r.start < e.start) : r.stop ≤ e.start := by
  cases hrange : replacement? e with
  | some q =>
    have hq : q ∈ replacements edits := mem_replacements.mpr ⟨e, he, hrange⟩
    have hqs := (replacement?_start hrange).1
    have hqf := replacement_filled hfilled hq
    rcases replacements_apart hfilled hplaced hr hq with rfl | h | h <;> omega
  | none =>
    have hpos : insertPos? e = some e.start := by
      cases e <;> simp_all [replacement?, insertPos?, Edit.start]
    obtain ⟨f, hf, hr⟩ := mem_replacements.mp hr
    have := hplaced.clear e he f hf e.start hpos r hr
    omega

end Texts

/-- What is still to come when everything added in front of `next` has been added, and everything
kept in front of `done` has been copied. -/
def remainingAt (source : List Char) (edits : List Edit) (next done p : Nat) :
    List (Char × Option Nat) :=
  (if next ≤ p then (addedAt edits p).map (·, none) else []) ++
    (if done ≤ p then (keptAt source edits p).map (·, some p) else [])

theorem range_split {n p : Nat} (h : p < n) :
    List.range n = List.range p ++ p :: List.range' (p + 1) (n - p - 1) := by
  rw [List.range_eq_range', List.range_eq_range', ← List.range'_succ, Nat.sub_add_cancel (by omega)]
  have := @List.range'_append_1 0 p (n - p)
  rw [Nat.zero_add, show p + (n - p) = n by omega] at this
  exact this.symm

theorem copy_origins {source : List Char} {lo hi : Nat} (hlo : Text.isBoundary lo source = true)
    (hhi : Text.isBoundary hi source = true) (hle : lo ≤ hi) :
    (copy source lo hi).flatMap Stretch.origins = Text.locatedBetween lo hi source := by
  unfold copy
  split
  · obtain ⟨t, ht⟩ := Text.exists_slice?_of_isBoundary hlo hhi hle
    simp [ht, Stretch.origins, Text.slice?_located ht]
  · have : hi - lo = 0 := by omega
    simp [Text.locatedBetween, this]

section Run

variable {source : List Char} {edits : List Edit}

/-- In front of the next stop nothing is added, and what is kept is copied. -/
theorem remaining_in_front {next done stop : Nat} (hdone : done ≤ stop)
    (hstarts : ∀ e ∈ edits, next ≤ e.start → stop ≤ e.start)
    (hpast : ∀ r ∈ replacements edits, r.start < next → r.stop ≤ done) :
    (List.range stop).flatMap (remainingAt source edits next done) =
      Text.locatedBetween done stop source := by
  have hsplit : List.range stop = List.range done ++ List.range' done (stop - done) := by
    have := @List.range'_append_1 0 done (stop - done)
    rw [Nat.zero_add, show done + (stop - done) = stop by omega] at this
    rw [List.range_eq_range', List.range_eq_range', this]
  have hadded : ∀ p < stop, (if next ≤ p then (addedAt edits p).map (·, none) else []) =
      ([] : List (Char × Option Nat)) := by
    intro p hp
    split
    · rw [addedAt_eq_nil, List.map_nil]
      intro e he heq
      have := hstarts e he (by omega)
      omega
    · rfl
  have hfront : (List.range done).flatMap (remainingAt source edits next done) = [] := by
    rw [List.flatMap_eq_nil_iff]
    intro p hp
    rw [List.mem_range] at hp
    rw [remainingAt, hadded p (by omega), if_neg (by omega)]
    rfl
  rw [hsplit, List.flatMap_append, hfront, List.nil_append, Text.locatedBetween]
  refine List.flatMap_congr ?_
  intro p hp
  rw [List.mem_range'_1] at hp
  -- a range over `p` would have been passed already, and then `done` would lie behind `p`
  have hkept : ¬ isCovered edits p = true := by
    rw [isCovered_iff]
    rintro ⟨r, hr, hlo, hhi⟩
    obtain ⟨e, he, hre⟩ := mem_replacements.mp hr
    have hstart := (replacement?_start hre).1
    by_cases hnext : next ≤ e.start
    · have := hstarts e he hnext
      omega
    · have := hpast r hr (by omega)
      omega
  rw [remainingAt, hadded p (by omega), if_pos (by omega), keptAt, if_neg hkept]
  rfl

/-- Once everything up to a stop is done, only what lies behind it remains. -/
theorem remaining_behind {stop done : Nat} (hstop : stop < Text.width source + 1)
    (hdone : stop ≤ done) :
    (List.range (Text.width source + 1)).flatMap (remainingAt source edits (stop + 1) done) =
      (if done ≤ stop then (keptAt source edits stop).map (·, some stop) else []) ++
        (List.range' (stop + 1) (Text.width source + 1 - stop - 1)).flatMap
          (remainingAt source edits (stop + 1) done) := by
  have hfront : (List.range stop).flatMap (remainingAt source edits (stop + 1) done) = [] := by
    rw [List.flatMap_eq_nil_iff]
    intro p hp
    rw [List.mem_range] at hp
    rw [remainingAt, if_neg (by omega), if_neg (by omega)]
    rfl
  rw [range_split hstop, List.flatMap_append, hfront, List.flatMap_cons, List.nil_append,
    remainingAt, if_neg (by omega), List.nil_append]

/-- Behind a stop everything remains, if nothing is kept up to where the text has been copied. -/
theorem remaining_all {stop done n : Nat}
    (hcovered : ∀ p, stop < p → p < done → keptAt source edits p = []) :
    (List.range' (stop + 1) n).flatMap (remainingAt source edits (stop + 1) done) =
      (List.range' (stop + 1) n).flatMap (originsAt source edits) := by
  refine List.flatMap_congr ?_
  intro p hp
  rw [List.mem_range'_1] at hp
  rw [remainingAt, if_pos hp.1, originsAt]
  by_cases hle : done ≤ p
  · rw [if_pos hle]
  · rw [if_neg hle, hcovered p (by omega) (by omega), List.map_nil]

/-- What holds between two stops, when everything added in front of `next` has been added and everything
kept in front of `done` has been copied: the stops ahead are where edits start, and the ranges that have
been passed end in front of `done`. -/
structure Between (source : List Char) (edits : List Edit) (stops : List Nat) (next done : Nat) : Prop
    where
  sorted : stops.Pairwise (· < ·)
  ahead : ∀ p ∈ stops, next ≤ p ∧ done ≤ p ∧ ∃ e ∈ edits, e.start = p
  starts : ∀ e ∈ edits, next ≤ e.start → e.start ∈ stops
  boundary : Text.isBoundary done source = true
  past : ∀ r ∈ replacements edits, r.start < next → r.stop ≤ done

theorem Between.start (source : List Char) (edits : List Edit) :
    Between source edits (stops edits) 0 0 where
  sorted := increasing_strict _
  ahead := by
    intro p hp
    obtain ⟨e, he, rfl⟩ := List.mem_map.mp (mem_increasing.mp hp)
    exact ⟨Nat.zero_le _, Nat.zero_le _, e, he, rfl⟩
  starts := fun e he _ => mem_increasing.mpr (List.mem_map_of_mem he)
  boundary := Text.isBoundary_zero source
  past := fun r _ hlt => absurd hlt (Nat.not_lt_zero _)

namespace Between

variable {rest : List Nat} {pos next done : Nat}

theorem le_start (h : Between source edits (pos :: rest) next done) :
    ∀ e ∈ edits, next ≤ e.start → pos ≤ e.start := by
  intro e he hle
  rcases List.mem_cons.mp (h.starts e he hle) with heq | hmem
  · omega
  · exact Nat.le_of_lt ((List.pairwise_cons.mp h.sorted).1 _ hmem)

/-- Behind a stop the remaining ones are ahead, wherever the copied text ends that no range reaches
over. -/
theorem step (h : Between source edits (pos :: rest) next done) {stop : Nat}
    (hboundary : Text.isBoundary stop source = true)
    (hahead : ∀ e ∈ edits, pos < e.start → stop ≤ e.start)
    (hpast : ∀ r ∈ replacements edits, r.start < pos + 1 → r.stop ≤ stop) :
    Between source edits rest (pos + 1) stop where
  sorted := (List.pairwise_cons.mp h.sorted).2
  ahead := by
    intro p hp
    have hlt := (List.pairwise_cons.mp h.sorted).1 p hp
    obtain ⟨_, _, e, he, rfl⟩ := h.ahead p (by simp [hp])
    exact ⟨hlt, hahead e he hlt, e, he, rfl⟩
  starts := by
    intro e he hle
    have hpos := (h.ahead pos (by simp)).1
    rcases List.mem_cons.mp (h.starts e he (by omega)) with heq | hmem
    · omega
    · exact hmem
  boundary := hboundary
  past := hpast

/-- At a stop where no range starts, the text is copied on from there. -/
theorem pass (h : Between source edits (pos :: rest) next done)
    (hpos : Text.isBoundary pos source = true)
    (hfind : (replacements edits).find? (·.start == pos) = none) :
    Between source edits rest (pos + 1) pos := by
  refine h.step hpos (fun e _ hlt => Nat.le_of_lt hlt) fun r hr hlt => ?_
  obtain ⟨e, he, hre⟩ := mem_replacements.mp hr
  have hstart := (replacement?_start hre).1
  by_cases hle : next ≤ e.start
  · have := h.le_start e he hle
    exact absurd (by simp; omega) (List.find?_eq_none.mp hfind r hr)
  · have := h.past r hr (by omega)
    have := (h.ahead pos (by simp)).2.1
    omega

/-- At a stop where a range starts, the text is copied on from its end. -/
theorem jump (hfilled : RangesFilled edits) (hplaced : Placed source edits)
    (h : Between source edits (pos :: rest) next done) {r : Replacement}
    (hr : r ∈ replacements edits) (hstart : r.start = pos) :
    Between source edits rest (pos + 1) r.stop := by
  refine h.step ?_ (fun e he hlt => start_outside hfilled hplaced hr he (by omega)) fun q hq hlt => ?_
  · obtain ⟨e, he, hre⟩ := mem_replacements.mp hr
    rw [(replacement?_start hre).2]
    exact hplaced.stop_boundary e he
  · have hqf := replacement_filled hfilled hq
    have hrf := replacement_filled hfilled hr
    rcases replacements_apart hfilled hplaced hq hr with heq | hapart | hapart
    · exact Nat.le_of_eq (congrArg Replacement.stop heq)
    · omega
    · by_cases heq : q.start = r.start
      · exact Nat.le_of_eq
          (congrArg Replacement.stop (replacement_unique hfilled hplaced hq hr heq))
      · omega

/-- Behind the last stop the text is copied to its end. -/
theorem remaining_last (h : Between source edits [] next done) :
    (List.range (Text.width source + 1)).flatMap (remainingAt source edits next done) =
      Text.locatedBetween done (Text.width source) source := by
  have hdone := Text.isBoundary_le_width h.boundary
  have hno : ∀ e ∈ edits, ¬ next ≤ e.start := fun e he hle => by simpa using h.starts e he hle
  have hend : Text.charAt? (Text.width source) source = none := by
    simpa using Text.charAt?_append source [] 0
  have hkept : keptAt source edits (Text.width source) = [] := by
    rw [keptAt, hend]
    split <;> rfl
  have hlast : remainingAt source edits next done (Text.width source) = [] := by
    rw [remainingAt, hkept, if_pos hdone]
    by_cases hle : next ≤ Text.width source
    · simp [addedAt_eq_nil fun e he heq => hno e he (heq ▸ hle)]
    · simp [hle]
  rw [List.range_succ, List.flatMap_append, List.flatMap_singleton, hlast, List.append_nil]
  exact remaining_in_front hdone (fun e he hle => absurd hle (hno e he)) h.past

/-- What remains in front of a stop, at the stop itself, and behind it. -/
theorem remaining_cons (h : Between source edits (pos :: rest) next done)
    (hwidth : pos ≤ Text.width source) :
    (List.range (Text.width source + 1)).flatMap (remainingAt source edits next done) =
      Text.locatedBetween done pos source ++ (originsAt source edits pos ++
        (List.range' (pos + 1) (Text.width source + 1 - pos - 1)).flatMap
          (originsAt source edits)) := by
  obtain ⟨hnext, hdone, _⟩ := h.ahead pos (by simp)
  rw [range_split (by omega : pos < Text.width source + 1), List.flatMap_append,
    remaining_in_front hdone h.le_start h.past, List.flatMap_cons, remainingAt, if_pos hnext,
    if_pos hdone]
  congr 2
  refine List.flatMap_congr fun p hp => ?_
  rw [List.mem_range'_1] at hp
  rw [remainingAt, if_pos (by omega), if_pos (by omega), originsAt]

end Between

theorem inserted_origins (pos : Nat) :
    ((insertedAt edits pos).map Stretch.added).flatMap Stretch.origins =
      (afterAt edits pos ++ beforeAt edits pos).map (·, none) := by
  rw [← insertedAt_flatten, List.flatMap_map, List.map_flatten]
  rfl

/-- By induction on the stops: from any of them on, the stretches hold what remains. -/
theorem stretches_remaining (hfilled : RangesFilled edits) (hplaced : Placed source edits)
    {stops : List Nat} {next done : Nat} (h : Between source edits stops next done) :
    (stretches source edits (replacements edits) stops done).flatMap Stretch.origins =
      (List.range (Text.width source + 1)).flatMap (remainingAt source edits next done) := by
  induction stops generalizing next done with
  | nil =>
    rw [stretches, copy_origins h.boundary (Text.isBoundary_width source)
      (Text.isBoundary_le_width h.boundary), h.remaining_last]
  | cons pos rest ih =>
    obtain ⟨_, hdone, e, he, rfl⟩ := h.ahead pos (by simp)
    have hpos := hplaced.start_boundary e he
    have hwidth := Text.isBoundary_le_width hpos
    have hreplacing := replacingAt_eq hfilled hplaced e.start
    rw [stretches, List.flatMap_append, List.flatMap_append, copy_origins h.boundary hpos hdone,
      inserted_origins, h.remaining_cons hwidth]
    cases hfind : (replacements edits).find? (·.start == e.start) with
    | none =>
      have hrun := ih (h.pass hpos hfind)
      simp only [hfind, Option.elim] at hreplacing
      rw [remaining_behind (by omega) (Nat.le_refl _), if_pos (Nat.le_refl _),
        remaining_all (fun p _ _ => by omega)] at hrun
      simp only [Nat.max_eq_right hdone, hrun, originsAt, addedAt, hreplacing, List.append_nil,
        List.append_assoc]
    | some r =>
      have hr := List.mem_of_find?_eq_some hfind
      have hstart : r.start = e.start := by simpa using List.find?_some hfind
      have hrf := replacement_filled hfilled hr
      have hcovered : ∀ p, e.start ≤ p → p < r.stop → keptAt source edits p = [] := by
        intro p hlo hhi
        rw [keptAt, if_pos (isCovered_iff.mpr ⟨r, hr, by omega, hhi⟩)]
      have hrun := ih (h.jump hfilled hplaced hr hstart)
      simp only [hfind, Option.elim] at hreplacing
      rw [remaining_behind (by omega) (by omega), if_neg (by omega),
        remaining_all (fun p hlo hhi => hcovered p (Nat.le_of_lt hlo) hhi)] at hrun
      simp only [List.flatMap_cons, hrun, originsAt, addedAt, hreplacing, Stretch.origins,
        hcovered e.start (Nat.le_refl _) (by omega), List.map_append, List.map_nil,
        List.append_nil, List.append_assoc, List.nil_append]

end Run

/-- The stretches of the result hold what the edits give offset by offset, each character with the
offset it was copied from. -/
theorem stretches_origins {source : List Char} {edits : List Edit} (hfilled : RangesFilled edits)
    (hplaced : Placed source edits) :
    (stretches source edits (replacements edits) (stops edits) 0).flatMap Stretch.origins =
      (List.range (Text.width source + 1)).flatMap (originsAt source edits) := by
  rw [stretches_remaining hfilled hplaced (.start source edits)]
  exact List.flatMap_congr fun p _ => by simp [remainingAt, originsAt]

theorem stretches_byOffset {source : List Char} {edits : List Edit} (hfilled : RangesFilled edits)
    (hplaced : Placed source edits) :
    (stretches source edits (replacements edits) (stops edits) 0).flatMap Stretch.text =
      byOffset source edits := by
  have h := congrArg (List.map Prod.fst) (stretches_origins hfilled hplaced)
  simpa only [List.map_flatMap, Stretch.origins_fst, originsAt, List.map_append, map_fst_pair,
    byOffset] using h

/-- Applied edits give the text that they describe offset by offset: at each offset what was
inserted for the text in front, what was inserted for the text behind, the replacement of the range
that starts there, and the character that stands there if no range covers it. -/
theorem apply_code_by_offset (source : List Char) (s : EditSet) (hbuilt : s.Built) (out : Spliced)
    (h : s.apply source = .ok out) : out.code = byOffset source s.edits := by
  have hfilled := ranges_filled_of_built hbuilt
  unfold EditSet.apply at h
  split at h
  · simp at h
  · rename_i hfault
    have hplaced := (fault_eq_none_iff hfilled).mp hfault
    simp only [Except.ok.injEq] at h
    subst h
    exact stretches_byOffset hfilled hplaced

/-- A text with a character of two bytes: an insertion where a range starts, and a range that starts
where another ends. -/
theorem apply_code_by_offset_adjacent :
    byOffset "añbc".toList
      (((({} : EditSet).remove 1 3).insertAfter 3 ".v").overwrite 3 4 "xy").edits =
        "a.vxyc".toList :=
  (apply_code_by_offset "añbc".toList _ (.overwrite (.insertAfter (.remove .empty 1 3) 3 ".v") 3 4 "xy")
    ⟨"a.vxyc".toList, [⟨0, 0, 0⟩, ⟨0, 5, 4⟩]⟩ (by cbv)).symm

end RefSugar.Splice
