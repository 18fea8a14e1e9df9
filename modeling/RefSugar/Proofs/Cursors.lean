import RefSugar.Proofs.Offsets
import RefSugar.Syntax.Lexer

/-! Scanning a text from a cursor on: where a scan stops stands behind where it started, with only
whole characters between. -/
namespace RefSugar.Syntax

open Text

def Cursor.Sees (c : Cursor) (p : Nat) : Prop :=
  ∃ raw rest, c.text = raw ++ rest ∧ p = c.pos + width raw

/-- The second cursor stands behind the first one, with the text that follows there or none. -/
def Cursor.Follows (c d : Cursor) : Prop :=
  ∃ raw rest, c.text = raw ++ rest ∧ d.pos = c.pos + width raw ∧ (d.text = rest ∨ d.text = [])

namespace Cursor

variable {c d e : Cursor} {p : Nat}

theorem Follows.refl (c : Cursor) : c.Follows c :=
  ⟨[], c.text, rfl, rfl, .inl rfl⟩

theorem Follows.trans (h : c.Follows d) (h' : d.Follows e) : c.Follows e := by
  obtain ⟨raw, rest, htext, hpos, hrest⟩ := h
  obtain ⟨raw', rest', htext', hpos', hrest'⟩ := h'
  rcases hrest with rfl | hrest
  · exact ⟨raw ++ raw', rest', by rw [htext, htext', List.append_assoc],
      by rw [hpos', hpos, width_append, Nat.add_assoc], hrest'⟩
  · -- at the end nothing more is taken
    rw [hrest, List.nil_eq, List.append_eq_nil_iff] at htext'
    obtain ⟨rfl, rfl⟩ := htext'
    exact ⟨raw, rest, htext, hpos'.trans hpos, .inr (hrest'.elim id id)⟩

theorem Follows.sees (h : c.Follows d) : c.Sees d.pos := by
  obtain ⟨raw, rest, htext, hpos, _⟩ := h
  exact ⟨raw, rest, htext, hpos⟩

theorem Follows.ended (h : c.Sees p) : c.Follows ⟨p, []⟩ := by
  obtain ⟨raw, rest, htext, hpos⟩ := h
  exact ⟨raw, rest, htext, hpos, .inr rfl⟩

theorem Sees.of_follows (h : c.Follows d) (h' : d.Sees p) : c.Sees p :=
  (h.trans (.ended h')).sees

theorem Sees.here (c : Cursor) : c.Sees c.pos :=
  (Follows.refl c).sees

theorem Follows.le (h : c.Follows d) : c.pos ≤ d.pos := by
  obtain ⟨raw, rest, _, hpos, _⟩ := h
  omega

theorem Follows.skip {pos : Nat} (raw rest : List Char) :
    Follows ⟨pos, raw ++ rest⟩ ⟨pos + width raw, rest⟩ :=
  ⟨raw, rest, rfl, rfl, .inl rfl⟩

theorem Follows.step (pos : Nat) (a : Char) (cs : List Char) :
    Follows ⟨pos, a :: cs⟩ ⟨pos + a.utf8Size, cs⟩ :=
  .skip [a] cs

/-- Behind a character of one byte. -/
theorem Follows.byte {a : Char} (ha : a.utf8Size = 1) (pos : Nat) (cs : List Char) :
    Follows ⟨pos, a :: cs⟩ ⟨pos + 1, cs⟩ :=
  ha ▸ .step pos a cs

end Cursor

/-- The first `n` characters of the text take one byte each. -/
def BytesFront (n : Nat) (cs : List Char) : Prop :=
  n ≤ cs.length ∧ ∀ c ∈ cs.take n, c.utf8Size = 1

section Bytes

variable {n k : Nat} {c : Char} {cs rest : List Char}

theorem utf8Size_of_lt (h : c.toNat < 128) : c.utf8Size = 1 := by
  unfold Char.utf8Size
  have : c.val ≤ 0x7f := by
    rw [UInt32.le_iff_toNat_le]
    exact Nat.lt_succ_iff.mp h
  simp [this]

theorem BytesFront.zero (cs : List Char) : BytesFront 0 cs :=
  ⟨Nat.zero_le _, by simp⟩

theorem BytesFront.cons (hc : c.utf8Size = 1) (h : BytesFront n cs) : BytesFront (n + 1) (c :: cs) := by
  refine ⟨Nat.succ_le_succ h.1, ?_⟩
  intro d hd
  rcases List.mem_cons.mp hd with rfl | hd
  · exact hc
  · exact h.2 d hd

theorem BytesFront.add (h : BytesFront n cs) (h' : BytesFront k (cs.drop n)) :
    BytesFront (n + k) cs := by
  refine ⟨?_, ?_⟩
  · have := h'.1
    rw [List.length_drop] at this
    have := h.1
    omega
  · intro d hd
    rw [List.take_add] at hd
    exact (List.mem_append.mp hd).elim (h.2 d) (h'.2 d)

theorem width_of_bytes (h : ∀ c ∈ cs, c.utf8Size = 1) : width cs = cs.length := by
  induction cs with
  | nil => rfl
  | cons c cs ih =>
    rw [width_cons, h c (by simp), ih fun d hd => h d (by simp [hd]), List.length_cons]
    omega

theorem BytesFront.width_take (h : BytesFront n cs) : width (cs.take n) = n := by
  rw [width_of_bytes h.2, List.length_take]
  exact Nat.min_eq_left h.1

theorem BytesFront.sees (h : BytesFront n cs) (pos : Nat) : Cursor.Sees ⟨pos, cs⟩ (pos + n) :=
  ⟨cs.take n, cs.drop n, (List.take_append_drop n cs).symm, by rw [h.width_take]⟩

end Bytes

namespace Escape

theorem utf8Size_of_hexDigit? {c : Char} {d : Nat} (h : hexDigit? c = some d) : c.utf8Size = 1 := by
  apply utf8Size_of_lt
  unfold hexDigit? at h
  have hle : ∀ a b : Char, (decide (a ≤ b)) = true → a.toNat ≤ b.toNat := by
    intro a b hab
    exact UInt32.le_iff_toNat_le.mp (of_decide_eq_true hab)
  split at h
  · rename_i hdigit
    simp only [Char.isDigit, Bool.and_eq_true, decide_eq_true_eq] at hdigit
    have := UInt32.le_iff_toNat_le.mp hdigit.2
    exact Nat.lt_of_le_of_lt this (by decide)
  · split at h
    · rename_i hlower
      rw [Bool.and_eq_true] at hlower
      exact Nat.lt_of_le_of_lt (hle _ _ hlower.2) (by decide)
    · split at h
      · rename_i hupper
        rw [Bool.and_eq_true] at hupper
        exact Nat.lt_of_le_of_lt (hle _ _ hupper.2) (by decide)
      · simp at h

/-- Digits are read from the front, one byte each. -/
theorem digits_front (count : Option Nat) (read : Digits) (cs : List Char) :
    ∃ n, (digits count read cs).length = read.length + n ∧ BytesFront n cs := by
  fun_induction digits count read cs with
  | case1 read => exact ⟨0, rfl, .zero []⟩
  | case2 read c cs _ => exact ⟨0, rfl, .zero _⟩
  | case3 read c cs _ hc ih =>
    obtain ⟨n, hn, hfront⟩ := ih
    obtain rfl := eq_of_beq hc
    exact ⟨n + 1, by rw [hn]; simp only; omega, hfront.cons rfl⟩
  | case4 read c cs _ _ _ => exact ⟨0, rfl, .zero _⟩
  | case5 read c cs _ _ d hd ih =>
    obtain ⟨n, hn, hfront⟩ := ih
    exact ⟨n + 1, by rw [hn]; simp only; omega, hfront.cons (utf8Size_of_hexDigit? hd)⟩

theorem digits_length_front (count : Option Nat) (cs : List Char) :
    BytesFront (digits count {} cs).length cs := by
  obtain ⟨n, hn, hfront⟩ := digits_front count {} cs
  rw [hn, Nat.zero_add]
  exact hfront

/-- What was read of a text for a character, or until it showed that none is given, is written in
bytes. -/
def InBytes (cs : List Char) : Except Fault Point → Prop
  | .ok p => BytesFront p.length cs
  | .error f => BytesFront f.offset cs

/-- The number of a character is written in bytes. -/
theorem point_inBytes (cs : List Char) : InBytes cs (point cs) := by
  unfold point
  split
  · rename_i rest
    have hfront := digits_length_front none rest
    have hone : BytesFront 1 ('\x7b' :: rest) := (BytesFront.zero rest).cons rfl
    dsimp only
    split
    · exact hone
    · split
      · exact hfront.cons rfl
      · split
        · rename_i hclose
          have hclose : BytesFront 1 (rest.drop (digits none {} rest).length) := by
            obtain ⟨tail, htail⟩ := List.head?_eq_some_iff.mp (eq_of_beq hclose)
            rw [htail]
            exact (BytesFront.zero tail).cons rfl
          exact (hfront.add hclose).cons rfl
        · exact hone
  · have hfront := digits_length_front (some 4) cs
    dsimp only
    split <;> exact hfront

/-- So are the two halves of a pair. -/
theorem character_inBytes (cs : List Char) : InBytes cs (character cs) := by
  have hfirst := point_inBytes cs
  unfold character
  cases hpoint : point cs with
  | error f =>
    rw [hpoint] at hfirst
    exact hfirst
  | ok first =>
    rw [hpoint] at hfirst
    simp only [bind, Except.bind, pure, Except.pure]
    split
    · split
      · rename_i rest hdrop
        have hsecond := point_inBytes rest
        have hmore : ∀ {k : Nat}, BytesFront k rest → BytesFront (first.length + 2 + k) cs := by
          intro k hk
          have h := BytesFront.add hfirst (hdrop ▸ (hk.cons rfl).cons rfl)
          exact (by omega : first.length + (k + 1 + 1) = first.length + 2 + k) ▸ h
        cases hpoint' : point rest with
        | error f =>
          rw [hpoint'] at hsecond
          have h := hmore hsecond
          rw [Nat.add_comm] at h
          exact h
        | ok second =>
          rw [hpoint'] at hsecond
          dsimp only [Except.mapError]
          split
          · exact hmore hsecond
          · exact hfirst
      · exact hfirst
    · exact hfirst

/-- The escape of a name is written in bytes. -/
theorem inName_ok {cs : List Char} {p : Point} (h : inName cs = .ok p) :
    BytesFront (p.length - 1) cs := by
  unfold inName at h
  split at h
  · rename_i rest
    have hbytes := character_inBytes rest
    split at h
    · rename_i q hq
      rw [hq] at hbytes
      obtain rfl := Except.ok.inj h
      exact BytesFront.cons rfl hbytes
    · simp at h
  · simp at h

/-- What is wrong with an escape shows within its bytes. -/
theorem inName_error {cs : List Char} {f : Fault} (h : inName cs = .error f) :
    BytesFront f.offset ('\\' :: cs) := by
  unfold inName at h
  split at h
  · rename_i rest
    have hbytes := character_inBytes rest
    split at h
    · simp at h
    · rename_i e he
      rw [he] at hbytes
      obtain rfl := Except.error.inj h
      exact (BytesFront.cons rfl hbytes).cons rfl
  · obtain rfl := Except.error.inj h
    exact .zero _

/-- A fault in a template is told at a character of it. -/
theorem templateFault?_sees {found : Option Fault} {n pos : Nat} {cs : List Char} {f : Fault}
    (h : templateFault? found n pos cs = some f) :
    found = some f ∨ Cursor.Sees ⟨pos, cs⟩ f.offset := by
  fun_induction templateFault? found n pos cs with
  | case1 => exact .inl h
  | case2 found n pos c cs ih => exact (ih h).imp_right (.of_follows (.step pos c cs))
  | case3 found pos cs g hg ih =>
    rcases ih h with hf | hsees
    · cases hf
      exact .inr (.here _)
    · exact .inr (.of_follows (.byte rfl pos cs) hsees)
  | case4 found pos cs hnone ih => exact (ih h).imp_right (.of_follows (.byte rfl pos cs))
  | case5 => exact .inl h
  | case6 => exact .inl h
  | case7 found pos c cs _ _ _ ih => exact (ih h).imp_right (.of_follows (.step pos c cs))
end Escape

end RefSugar.Syntax
