import Gel.Parsing

/-!
# LongLiterals — decimal numbers as `Long`s

`Token::AsLong` reads the digits of a token with `atol`, whose result is signed.  A `Long` is an
unsigned word: the numbers from `2 ^ 63` on are read as `2 ^ 63 - 1`.

* `readsLong_iff`: the numbers that are read back.
-/

namespace Gel

open Faulting Lexer

namespace Parser

variable (reg : Registry)

/-- `ParseLiteralNumber`. -/
def parseLiteralNumber : Parse Value := do
  let next ← nextToken reg
  match next.kind with
  | .literalLong => return .long next.asLong
  | .literalDouble => return .double next.asDouble
  | _ => throw .fatal

/-- The decimal representation of `n`, up to where it ends, is one `kLiteralLong` token, which
`ParseLiteralNumber` turns into the `Long` of value `n`. -/
def ReadsLong (n : Nat) : Prop :=
  ∀ rest, Delimited rest →
    (∃ t, t.kind = .literalLong ∧ Scans reg.findClass (Nat.toDigits 10 n ++ rest) t rest) ∧
      ∃ v, v.toNat = n ∧
        Parses reg (parseLiteralNumber reg) (Nat.toDigits 10 n ++ rest) (.long v) rest

variable {reg} {n : Nat}

/-- `ParseLiteralValue` leaves a number to `ParseLiteralNumber`. -/
theorem parseLiteralValue_number {p q : Parser} {t : Token} (h : nextToken reg p = .ok (t, q))
    (hk : t.kind = .literalLong ∨ t.kind = .literalDouble) :
    parseLiteralValue reg p = parseLiteralNumber reg p := by
  rw [parseLiteralValue, parseLiteralNumber, bind_run h, bind_run h]
  rcases hk with hk | hk <;> rw [hk]

/-- The digits of a word fit into the buffer. -/
theorem length_toDigits_word (h : n < 2 ^ 64) : (Nat.toDigits 10 n).length ≤ bufferSize := by
  have hlt : n < 10 ^ 20 := h.trans (by decide)
  exact Nat.le_trans (Nat.toDigits_length 10 n 20 (by decide) hlt) (by decide)

/-- What the digits of a word are parsed as. -/
theorem parses_toDigits (h : n < 2 ^ 64) {rest : List Char} (hd : Delimited rest) :
    Parses reg (parseLiteralNumber reg) (Nat.toDigits 10 n ++ rest)
      (.long (.ofNat (min (2 ^ 63 - 1) n))) rest := by
  refine (parses_nextToken (scans_long n (length_toDigits_word h) hd)).bind ?_
  have hlong : (⟨.literalLong, .ofList (Nat.toDigits 10 n)⟩ : Token).asLong
      = .ofNat (min (2 ^ 63 - 1) n) := by
    rw [Token.asLong, String.toList_ofList, atol_toDigits_eq_min]
  change Parses reg (pure (Value.long (⟨.literalLong, .ofList (Nat.toDigits 10 n)⟩ : Token).asLong))
    _ _ _
  rw [hlong]
  exact .pure _

/-- What is read back is at most `LONG_MAX`. -/
theorem ReadsLong.lt (hr : ReadsLong reg n) (h : n < 2 ^ 64) : n < 2 ^ 63 := by
  have hd : Delimited [] := trivial
  obtain ⟨-, v, hv, hp⟩ := hr [] hd
  have hat : At reg { lexer := { chars := Nat.toDigits 10 n ++ [] }, scope := some 0 }
      (Nat.toDigits 10 n ++ []) :=
    ⟨rfl, by simp, .inl ⟨rfl, rfl, rfl, (by decide : (-1 : Int) < 0)⟩⟩
  obtain ⟨q, hq, -⟩ := hp _ hat
  obtain ⟨q', hq', -⟩ := parses_toDigits h hd _ hat
  rw [hq] at hq'
  simp only [Except.ok.injEq, Prod.mk.injEq, Value.long.injEq] at hq'
  by_contra hge
  -- it is read as `LONG_MAX`, which it is not
  have hle : 2 ^ 63 ≤ n := Nat.le_of_not_lt hge
  have hmin : min (2 ^ 63 - 1) n = 2 ^ 63 - 1 := Nat.min_eq_left ((Nat.pred_le _).trans hle)
  rw [hq'.1, hmin] at hv
  have hmax : 2 ^ 63 - 1 = n := hv
  rw [← hmax] at hle
  exact absurd hle (by decide)

/-- A word is read back exactly when it is at most `LONG_MAX`. -/
theorem readsLong_iff (reg : Registry) (h : n < 2 ^ 64) : ReadsLong reg n ↔ n < 2 ^ 63 := by
  constructor
  · intro hr
    exact hr.lt h
  · intro hlt rest hd
    have hmin : min (2 ^ 63 - 1) n = n := Nat.min_eq_right (Nat.le_pred_of_lt hlt)
    have hp := @parses_toDigits reg n h rest hd
    rw [hmin] at hp
    refine ⟨⟨_, rfl, scans_long n (length_toDigits_word h) hd⟩, _, ?_, hp⟩
    rw [UInt64.toNat_ofNat', Nat.mod_eq_of_lt h]

/-- `LONG_MAX` is read back. -/
theorem readsLong_longMax : ReadsLong {} (2 ^ 63 - 1) :=
  (readsLong_iff {} (by decide)).mpr (by decide)

/-- `2 ^ 63` is not. -/
theorem not_readsLong_succ_longMax : ¬ ∀ reg n, n < 2 ^ 64 → ReadsLong reg n := by
  intro h
  exact absurd ((h {} (2 ^ 63) (by decide)).lt (by decide)) (by decide)

end Parser

end Gel
