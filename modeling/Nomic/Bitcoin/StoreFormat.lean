import Mathlib.Data.Nat.Digits
import Nomic.Basic

/-!
# The text of the watched-script store

The store file holds one record per line, `writeln!(file, "{},{}", addr, sigset_index)`, and
`maybe_load` reads it back with `BufRead::lines`, `str::split(',')` and `u32::from_str`. This
module models those three standard-library functions on decoded text and proves what the store
needs of them: the lines of a file of records are the records (`lines_render`), a record splits
into its two fields (`splitOn_recordLine`), and the decimal text of a `u32` parses back
(`parseU32_toDigits`).

The address's text form (`Display` and `FromStr` of the sidechain address type) is not among the
modelled files; `AddressText` takes both functions as parameters.
-/

namespace Nomic.Bitcoin

/-! ### `str::split` and `BufRead::lines` -/

/-- `str::split(sep)`: the pieces between separators (always at least one). -/
def splitOn (sep : Char) (cs : List Char) : List (List Char) := go [] cs
where
  /-- The split with the current piece, reversed, in `acc`. -/
  go (acc : List Char) : List Char → List (List Char)
    | [] => [acc.reverse]
    | c :: cs => if c = sep then acc.reverse :: go [] cs else go (c :: acc) cs

/-- Drop one trailing `\r`, as `lines` does before a `\n`. -/
def stripCR (l : List Char) : List Char := if l.getLast? = some '\r' then l.dropLast else l

/-- `BufRead::lines`: split at `\n`, dropping a `\r` before it; a last line without `\n` is kept
as it is, and an empty last line is not a line. -/
def lines (cs : List Char) : List (List Char) := go [] cs
where
  /-- The lines with the current line, reversed, in `acc`. -/
  go (acc : List Char) : List Char → List (List Char)
    | [] => if acc.isEmpty then [] else [acc.reverse]
    | c :: cs => if c = '\n' then stripCR acc.reverse :: go [] cs else go (c :: acc) cs

section Split

variable {sep : Char}

theorem splitOn_go_of_not_mem {xs : List Char} (hx : sep ∉ xs) (acc : List Char) :
    splitOn.go sep acc xs = [acc.reverse ++ xs] := by
  induction xs generalizing acc with
  | nil => simp [splitOn.go]
  | cons x xs ih =>
    simp only [List.mem_cons, not_or] at hx
    simp [splitOn.go, Ne.symm hx.1, ih hx.2]

theorem splitOn_go_append {xs : List Char} (hx : sep ∉ xs) (acc ys : List Char) :
    splitOn.go sep acc (xs ++ sep :: ys) = (acc.reverse ++ xs) :: splitOn.go sep [] ys := by
  induction xs generalizing acc with
  | nil => simp [splitOn.go]
  | cons x xs ih =>
    simp only [List.mem_cons, not_or] at hx
    simp [splitOn.go, Ne.symm hx.1, ih hx.2]

theorem splitOn_go_ne_nil (acc cs : List Char) : ∃ first rest, splitOn.go sep acc cs = first :: rest := by
  induction cs generalizing acc with
  | nil => exact ⟨_, _, rfl⟩
  | cons c cs ih =>
    by_cases hc : c = sep
    · exact ⟨acc.reverse, splitOn.go sep [] cs, by simp [splitOn.go, hc]⟩
    · simpa [splitOn.go, hc] using ih (c :: acc)

theorem splitOn_of_mem {cs : List Char} (h : sep ∈ cs) :
    ∃ first second rest, splitOn sep cs = first :: second :: rest := by
  suffices ∀ acc, ∃ first second rest, splitOn.go sep acc cs = first :: second :: rest from this []
  induction cs with
  | nil => exact absurd h (List.not_mem_nil _)
  | cons c cs ih =>
    intro acc
    by_cases hc : c = sep
    · obtain ⟨second, rest, hgo⟩ := @splitOn_go_ne_nil sep [] cs
      exact ⟨acc.reverse, second, rest, by simp [splitOn.go, hc, hgo]⟩
    · have h' : sep ∈ cs := (List.mem_cons.1 h).resolve_left (Ne.symm hc)
      simpa [splitOn.go, hc] using ih h' (c :: acc)

theorem lines_go_append {xs : List Char} (hx : '\n' ∉ xs) (acc ys : List Char) :
    lines.go (acc ++ []) (xs ++ '\n' :: ys) = stripCR (acc.reverse ++ xs) :: lines.go [] ys := by
  induction xs generalizing acc with
  | nil => simp [lines.go]
  | cons x xs ih =>
    simp only [List.mem_cons, not_or] at hx
    have := ih hx.2 (x :: acc)
    simp only [List.append_nil] at this ⊢
    simp [lines.go, Ne.symm hx.1, this]

/-- The text of a list of lines, each followed by `\n`. -/
def render (ls : List (List Char)) : List Char := (ls.map (· ++ ['\n'])).flatten

@[simp] theorem render_nil : render [] = [] := rfl

@[simp] theorem render_cons (l : List Char) (ls : List (List Char)) :
    render (l :: ls) = l ++ '\n' :: render ls := by
  simp [render]

theorem render_append (ls ls' : List (List Char)) : render (ls ++ ls') = render ls ++ render ls' := by
  simp [render]

/-- The lines of a rendered file are its lines, each without a trailing `\r`. -/
theorem lines_render (ls : List (List Char)) (hls : ∀ l ∈ ls, '\n' ∉ l) :
    lines (render ls) = ls.map stripCR := by
  unfold lines
  induction ls with
  | nil => rfl
  | cons l ls ih =>
    have h := lines_go_append (hls l (List.mem_cons_self _ _)) [] (render ls)
    simp only [List.append_nil] at h
    rw [render_cons, h, ih fun l' hl' => hls l' (List.mem_cons_of_mem _ hl')]
    simp

theorem stripCR_of_getLast {l : List Char} (c : Char) (hl : l.getLast? = some c)
    (hc : c ≠ '\r') : stripCR l = l := by
  simp [stripCR, hl, hc]

end Split

/-! ### `u32` as decimal text -/

/-- The value of a decimal digit character. -/
def digitValue (c : Char) : Nat := c.toNat - '0'.toNat

/-- The loop of `u32::from_str_radix(s, 10)`: each character must be a digit, and
`checked_mul(10)` then `checked_add(digit)` must stay below `2 ^ 32`. -/
def parseDigits : Nat → List Char → Option Nat
  | acc, [] => some acc
  | acc, c :: cs =>
    if c.isDigit ∧ acc * 10 + digitValue c < 2 ^ 32 then parseDigits (acc * 10 + digitValue c) cs
    else none

/-- `u32::from_str`: empty text, a lone sign, a `-` and any non-digit are rejected; a leading
`+` is skipped. -/
def parseU32 (s : List Char) : Option UInt32 :=
  match s with
  | [] => none
  | ['+'] => none
  | ['-'] => none
  | '+' :: ds => (parseDigits 0 ds).map UInt32.ofNat
  | ds => (parseDigits 0 ds).map UInt32.ofNat

/-- The decimal value of a digit string, without bound. -/
def digitsValue (acc : Nat) (cs : List Char) : Nat := cs.foldl (fun a c => a * 10 + digitValue c) acc

theorem le_digitsValue (acc : Nat) (cs : List Char) : acc ≤ digitsValue acc cs := by
  induction cs generalizing acc with
  | nil => exact le_refl _
  | cons c cs ih => exact le_trans (by omega) (ih (acc * 10 + digitValue c))

theorem parseDigits_eq {acc : Nat} (hacc : acc < 2 ^ 32) (cs : List Char)
    (hd : ∀ c ∈ cs, c.isDigit) :
    parseDigits acc cs = if digitsValue acc cs < 2 ^ 32 then some (digitsValue acc cs) else none := by
  induction cs generalizing acc with
  | nil => simpa [parseDigits, digitsValue] using hacc
  | cons c cs ih =>
    have hc := hd c (List.mem_cons_self _ _)
    have hstep : digitsValue acc (c :: cs) = digitsValue (acc * 10 + digitValue c) cs := rfl
    rw [parseDigits, hstep]
    by_cases hlt : acc * 10 + digitValue c < 2 ^ 32
    · rw [if_pos ⟨hc, hlt⟩, ih hlt fun c' hc' => hd c' (List.mem_cons_of_mem _ hc')]
    · have := le_digitsValue (acc * 10 + digitValue c) cs
      rw [if_neg fun h => hlt h.2, if_neg (by omega)]

theorem digitValue_digitChar {d : Nat} (hd : d < 10) :
    (Nat.digitChar d).isDigit ∧ digitValue (Nat.digitChar d) = d := by
  have h : ∀ d : Fin 10, (Nat.digitChar d).isDigit ∧ digitValue (Nat.digitChar d) = d := by
    decide
  exact h ⟨d, hd⟩

theorem toDigitsCore_ne_nil (fuel n : Nat) {ds : List Char} (hds : ds ≠ []) :
    Nat.toDigitsCore 10 fuel n ds ≠ [] := by
  induction fuel generalizing n ds with
  | zero => exact hds
  | succ fuel ih =>
    simp only [Nat.toDigitsCore]
    split_ifs
    · exact List.cons_ne_nil _ _
    · exact ih _ (List.cons_ne_nil _ _)

theorem toDigits_ne_nil (n : Nat) : Nat.toDigits 10 n ≠ [] := by
  simp only [Nat.toDigits, Nat.toDigitsCore]
  split_ifs
  · exact List.cons_ne_nil _ _
  · exact toDigitsCore_ne_nil _ _ (List.cons_ne_nil _ _)

theorem toDigitsCore_spec (fuel n : Nat) (ds : List Char) (hn : n < fuel) :
    (∀ c ∈ Nat.toDigitsCore 10 fuel n ds, c ∈ ds ∨ c.isDigit) ∧
      digitsValue 0 (Nat.toDigitsCore 10 fuel n ds) = digitsValue n ds := by
  induction fuel generalizing n ds with
  | zero => omega
  | succ fuel ih =>
    obtain ⟨hdig, hval⟩ := digitValue_digitChar (Nat.mod_lt n (by decide : 10 > 0))
    have hmem : ∀ c ∈ Nat.digitChar (n % 10) :: ds, c ∈ ds ∨ c.isDigit := fun c hc => by
      rcases List.mem_cons.1 hc with rfl | hc
      · exact .inr hdig
      · exact .inl hc
    simp only [Nat.toDigitsCore]
    split_ifs with h0
    · refine ⟨hmem, ?_⟩
      simp only [digitsValue, List.foldl_cons, hval]
      congr 1
      omega
    · obtain ⟨ih₁, ih₂⟩ := ih (n / 10) (Nat.digitChar (n % 10) :: ds) (by omega)
      refine ⟨fun c hc => (ih₁ c hc).elim (hmem c) .inr, ?_⟩
      rw [ih₂]
      simp only [digitsValue, List.foldl_cons, hval]
      congr 1
      omega

theorem toDigits_isDigit (n : Nat) : ∀ c ∈ Nat.toDigits 10 n, c.isDigit := fun c hc =>
  ((toDigitsCore_spec (n + 1) n [] (by omega)).1 c hc).resolve_left (List.not_mem_nil c)

theorem digitsValue_toDigits (n : Nat) : digitsValue 0 (Nat.toDigits 10 n) = n :=
  (toDigitsCore_spec (n + 1) n [] (by omega)).2

/-- The decimal text of a `u32` parses back to it. -/
theorem parseU32_toDigits (i : UInt32) : parseU32 (Nat.toDigits 10 i.toNat) = some i := by
  have hd := toDigits_isDigit i.toNat
  have hv : parseDigits 0 (Nat.toDigits 10 i.toNat) = some i.toNat := by
    rw [parseDigits_eq (by decide) _ hd, digitsValue_toDigits,
      if_pos (show i.toNat < 2 ^ 32 from i.toBitVec.isLt)]
  obtain ⟨c, cs, hcs⟩ := List.exists_cons_of_ne_nil (toDigits_ne_nil i.toNat)
  have hc : c.isDigit := hd c (by simp [hcs])
  have hplus : c ≠ '+' := by rintro rfl; exact absurd hc (by decide)
  have hminus : c ≠ '-' := by rintro rfl; exact absurd hc (by decide)
  rw [hcs] at hv ⊢
  unfold parseU32
  split <;> simp_all [uint32_ofNat_toNat]

theorem comma_not_mem_toDigits (n : Nat) : ',' ∉ Nat.toDigits 10 n :=
  fun h => absurd (toDigits_isDigit n ',' h) (by decide)

theorem newline_not_mem_toDigits (n : Nat) : '\n' ∉ Nat.toDigits 10 n :=
  fun h => absurd (toDigits_isDigit n '\n' h) (by decide)

/-! ### Records -/

/-- The address type's text form: `Display` and `FromStr`. -/
structure AddressText (Address : Type) where
  toText : Address → List Char
  parse : List Char → Option Address

variable {Address : Type} (text : AddressText Address)

/-- The line `writeln!(file, "{},{}", addr, sigset_index)` writes, without its `\n`. -/
def recordLine (addr : Address) (i : UInt32) : List Char :=
  text.toText addr ++ ',' :: Nat.toDigits 10 i.toNat

/-- An address text the store format keeps: no `,`, no newline, and it parses back. -/
def AddressText.Faithful : Prop :=
  ∀ a, ',' ∉ text.toText a ∧ '\n' ∉ text.toText a ∧ text.parse (text.toText a) = some a

variable {text}

theorem newline_not_mem_recordLine {addr : Address} (ht : '\n' ∉ text.toText addr) (i : UInt32) :
    '\n' ∉ recordLine text addr i := by
  simp [recordLine, ht, newline_not_mem_toDigits]

theorem splitOn_recordLine (ht : text.Faithful) (addr : Address) (i : UInt32) :
    splitOn ',' (recordLine text addr i) = [text.toText addr, Nat.toDigits 10 i.toNat] := by
  simp [splitOn, recordLine, splitOn_go_append (ht addr).1,
    splitOn_go_of_not_mem (comma_not_mem_toDigits i.toNat)]

theorem stripCR_recordLine (addr : Address) (i : UInt32) :
    stripCR (recordLine text addr i) = recordLine text addr i := by
  obtain ⟨L, b, hb⟩ := (List.eq_nil_or_concat (Nat.toDigits 10 i.toNat)).resolve_left
    (toDigits_ne_nil _)
  rw [List.concat_eq_append] at hb
  have hdig : b.isDigit := toDigits_isDigit i.toNat b (by simp [hb])
  have hlast : (recordLine text addr i).getLast? = some b := by
    rw [recordLine, hb, ← List.cons_append, ← List.append_assoc, List.getLast?_concat]
  refine stripCR_of_getLast b hlast ?_
  rintro rfl
  exact absurd hdig (by decide)

/-- Addresses written as decimal `u32`s: a text form the store format keeps. -/
def decimalText : AddressText UInt32 := ⟨fun a => Nat.toDigits 10 a.toNat, parseU32⟩

theorem decimalText_faithful : decimalText.Faithful := fun a =>
  ⟨comma_not_mem_toDigits _, newline_not_mem_toDigits _, parseU32_toDigits a⟩

end Nomic.Bitcoin
