import RefSugar.Proofs.Cursors

/-! Names with escapes. An escape reads the same whatever follows it, so how a name is written can be
told character by character, and a scan takes all that belongs to the name. -/
namespace RefSugar.Syntax

open Text

namespace Escape

/-- Digits depend on the characters that are read for them. -/
theorem digits_take (count : Option Nat) (read : Digits) (cs : List Char) (k : Nat)
    (hk : (digits count read cs).length ≤ read.length + k) :
    digits count read (cs.take k) = digits count read cs := by
  fun_induction digits count read cs generalizing k with
  | case1 read => simp [digits]
  | case2 read c cs hcount => cases k <;> simp [digits, hcount]
  | case3 read c cs hcount hc ih =>
    obtain ⟨n, hn, _⟩ := digits_front count { read with length := read.length + 1 } cs
    cases k with
    | zero =>
      dsimp only at hn
      omega
    | succ k =>
      have hrest := ih k (by dsimp only; omega)
      rw [List.take_succ_cons, digits, if_neg hcount, if_pos hc, hrest]
  | case4 read c cs hcount hc hd => cases k <;> simp [digits, hcount, hc, hd]
  | case5 read c cs hcount hc d hd ih =>
    obtain ⟨n, hn, _⟩ := digits_front count ⟨16 * read.value + d, read.count + 1, read.length + 1⟩ cs
    cases k with
    | zero =>
      dsimp only at hn
      omega
    | succ k =>
      have hrest := ih k (by dsimp only; omega)
      rw [List.take_succ_cons, digits, if_neg hcount, if_neg hc]
      simp only [hd, hrest]

/-- Nothing behind the digits has a say in the character they give. -/
theorem point_take {cs : List Char} {p : Point} (h : point cs = .ok p) (k : Nat)
    (hk : p.length ≤ k) : point (cs.take k) = .ok p := by
  unfold point at h
  split at h
  · rename_i rest
    dsimp only at h
    split at h
    · cases h
    split at h
    · cases h
    split at h
    · rename_i hcount hvalue hclose
      cases h
      obtain ⟨k, rfl⟩ : ∃ n, k = n + 1 := ⟨k - 1, by simp only at hk; omega⟩
      have hdigits := digits_take none {} rest k (by simp only at hk ⊢; omega)
      have hhead : ((rest.take k).drop (digits none {} rest).length).head? = some '\x7d' := by
        rw [List.drop_take, List.head?_take, if_neg (by simp only at hk; omega)]
        exact eq_of_beq hclose
      simp only [List.take_succ_cons, point, hdigits, hcount, hvalue, hhead, beq_self_eq_true,
        if_true, if_false, Bool.false_eq_true]
    · cases h
  · rename_i hbrace
    dsimp only at h
    split at h
    · cases h
    · rename_i hcount
      cases h
      have hdigits := digits_take (some 4) {} cs k (by simpa using hk)
      have hbrace' : ∀ rest, cs.take k ≠ '\x7b' :: rest := by
        intro rest hrest
        cases cs with
        | nil => simp at hrest
        | cons c cs =>
          cases k with
          | zero => simp at hrest
          | succ k =>
            rw [List.take_succ_cons] at hrest
            exact hbrace cs (by rw [(List.cons.inj hrest).1])
      rw [point]
      · simp only [hdigits, hcount, if_false]
      · exact hbrace'

theorem head?_take_of_pos {cs : List Char} {k : Nat} (hk : 0 < k) : (cs.take k).head? = cs.head? := by
  rw [List.head?_take, if_neg (by omega)]

/-- One half of a pair that nothing follows is taken alone. -/
theorem character_alone {cs : List Char} {p : Point} (h : point cs = .ok p) :
    character (cs.take p.length) = .ok p := by
  have hdrop : (cs.take p.length).drop p.length = [] := by simp
  rw [character, point_take h p.length (Nat.le_refl _)]
  simp only [bind, Except.bind, hdrop]
  split <;> rfl

/-- A character depends on what is read for it. -/
theorem character_take {cs : List Char} {p : Point} (h : character cs = .ok p) :
    character (cs.take p.length) = .ok p := by
  unfold character at h
  cases hfirst : point cs with
  | error f => simp [hfirst, bind, Except.bind] at h
  | ok first =>
    have halone : first = p → character (cs.take p.length) = .ok p := by
      rintro rfl
      exact character_alone hfirst
    simp only [hfirst, bind, Except.bind] at h
    by_cases hlead : (isLead first.value && cs.head? != some '\x7b') = true
    · rw [if_pos hlead] at h
      split at h
      · rename_i rest hdrop
        cases hsecond : point rest with
        | error f =>
          rw [hsecond] at h
          cases h
        | ok second =>
          rw [hsecond] at h
          dsimp only [Except.mapError] at h
          by_cases htrail : isTrail second.value = true
          · -- the second half follows, and stands in what is read
            rw [if_pos htrail] at h
            obtain rfl := Except.ok.inj h
            dsimp only
            have hhead := @head?_take_of_pos cs (first.length + 2 + second.length) (by omega)
            have hrest : (cs.take (first.length + 2 + second.length)).drop first.length =
                '\\' :: 'u' :: rest.take second.length := by
              rw [List.drop_take, hdrop, show first.length + 2 + second.length - first.length =
                second.length + 1 + 1 by omega, List.take_succ_cons, List.take_succ_cons]
            rw [character, point_take hfirst _ (by omega)]
            simp only [bind, Except.bind, hhead, hlead, if_true, hrest,
              point_take hsecond _ (Nat.le_refl _)]
            dsimp only [Except.mapError]
            rw [if_pos htrail]
            rfl
          · rw [if_neg htrail] at h
            exact halone (Except.ok.inj h)
      · exact halone (Except.ok.inj h)
    · rw [if_neg hlead] at h
      exact halone (Except.ok.inj h)

/-- An escape reads the same whatever follows it. -/
theorem inName_take {cs : List Char} {p : Point} (h : inName cs = .ok p) :
    0 < p.length ∧ inName (cs.take (p.length - 1)) = .ok p := by
  unfold inName at h
  split at h
  · rename_i rest
    cases hcharacter : character rest with
    | error f => simp [hcharacter] at h
    | ok q =>
      simp only [hcharacter, Except.ok.injEq] at h
      subst h
      refine ⟨by dsimp only; omega, ?_⟩
      dsimp only
      rw [show q.length + 2 - 1 = q.length + 1 by omega, List.take_succ_cons]
      simp only [inName, character_take hcharacter]
  · cases h

end Escape

/-- The characters `chars` are written as `raw`: each as it is, or by an escape. -/
inductive Spells : List Char → List Char → Prop
  | nil : Spells [] []
  | char {c : Char} {raw chars : List Char} (hc : isExtender c = true) (h : Spells raw chars) :
    Spells (c :: raw) (c :: chars)
  | escape {esc raw chars : List Char} {p : Escape.Point} (hp : Escape.inName esc = .ok p)
    (hlength : p.length = esc.length + 1) (h : Spells raw chars) :
    Spells ('\\' :: (esc ++ raw)) (Escape.nameChars p.value ++ chars)

def EndsName (back : List Char) : Prop :=
  back.head?.any (fun c => isExtender c || c == '\\') = false

namespace Lexer

/-- A scan takes all characters of a name, and an escape that has been begun in front of them. -/
theorem scanName_spells (chars : List Char) (escaped : Bool) (n pos : Nat) (cs : List Char)
    (hn : n ≤ cs.length) (hfault : (scanName chars escaped n pos cs).fault? = none) :
    ∃ esc raw spelled, cs = esc ++ (raw ++ (scanName chars escaped n pos cs).stop.text) ∧
      esc.length = n ∧ Spells raw spelled ∧
      (scanName chars escaped n pos cs).chars = spelled.reverse ++ chars ∧
      EndsName (scanName chars escaped n pos cs).stop.text := by
  fun_induction scanName chars escaped n pos cs with
  | case1 chars escaped n pos =>
    obtain rfl : n = 0 := by simpa using hn
    exact ⟨[], [], [], rfl, rfl, .nil, rfl, rfl⟩
  | case2 chars escaped n pos c cs ih =>
    obtain ⟨esc, raw, spelled, hcs, hlength, hspells, hchars, hends⟩ :=
      ih (Nat.le_of_succ_le_succ hn) hfault
    exact ⟨c :: esc, raw, spelled, congrArg (c :: ·) hcs, congrArg (· + 1) hlength, hspells, hchars,
      hends⟩
  | case3 chars escaped pos c cs hc ih =>
    obtain ⟨esc, raw, spelled, hcs, hlength, hspells, hchars, hends⟩ := ih (Nat.zero_le _) hfault
    obtain rfl := List.length_eq_zero_iff.mp hlength
    exact ⟨[], c :: raw, c :: spelled, congrArg (c :: ·) hcs, rfl, .char hc hspells,
      by simp [hchars], hends⟩
  | case4 chars escaped pos c cs hc hslash p hp ih =>
    obtain rfl := eq_of_beq hslash
    obtain ⟨hpos, hname⟩ := Escape.inName_take hp
    obtain ⟨esc, raw, spelled, hcs, hlength, hspells, hchars, hends⟩ :=
      ih (Escape.inName_ok hp).1 hfault
    have hesc : cs.take (p.length - 1) = esc := by
      rw [hcs, ← hlength, List.take_left]
    refine ⟨[], '\\' :: (esc ++ raw), Escape.nameChars p.value ++ spelled, ?_, rfl,
      .escape (hesc ▸ hname) (by omega) hspells, by simp [hchars], hends⟩
    simpa using hcs
  | case5 chars escaped pos c cs hc hslash f hf => cases hfault
  | case6 chars escaped pos c cs hc hslash =>
    exact ⟨[], [], [], rfl, rfl, .nil, rfl, by simp [EndsName, hc, hslash]⟩

end Lexer

end RefSugar.Syntax
