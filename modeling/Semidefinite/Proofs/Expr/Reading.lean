import Semidefinite.Expr.Terms
import Semidefinite.Proofs.Expr.Value
import Semidefinite.Proofs.Numerals

/-!
# Reading the text of an expression

A text is read from left to right, one character at a time. Blanks, `+`, `*` and
parentheses are marks, and the characters between two marks are a word: a number
or a symbol, whose value is given, or an exponent. Reading the text of a tree
gives the value of the tree (`readsTerm_text`), provided that no product in it
is empty and that its symbols are written as words of their own (`Spelt`).
-/

namespace Semidefinite

namespace Reading

def isMark (c : Char) : Bool :=
  c == ' ' || c == '+' || c == '*' || c == '(' || c == ')'

/-- A text without marks that is not empty. -/
def IsWord (w : List Char) : Prop :=
  w ≠ [] ∧ ∀ c ∈ w, isMark c = false

/-! ## The reader -/

/-- What is known of a text from the part that was read. -/
structure State (R : Type*) where
  /-- For each open parenthesis the sum and the product that it interrupts. -/
  outer : List (R × R)
  /-- The sum of the finished terms. -/
  total : R
  /-- The product of the finished factors. -/
  before : R
  last : R
  /-- The number of asterisks since the last factor. -/
  stars : Nat
  word : List Char

section Reader
variable {R : Type*} [CommRing R]

namespace State

/-- The product that the next factor is multiplied to. -/
def pending (st : State R) : R :=
  if st.stars = 0 then st.before else st.before * st.last

/-- Takes a value for the next factor. -/
def push (st : State R) (v : R) : State R :=
  { st with before := st.pending, last := v, stars := 0, word := [] }

/-- Ends the word: it is an exponent after two asterisks, otherwise a factor. -/
def close (value : List Char → R) (st : State R) : State R :=
  if st.word = [] then st
  else if st.stars ≤ 1 then st.push (value st.word)
  else { st with last := st.last ^ Nat.ofDigitChars 10 st.word 0, stars := 0, word := [] }

def start (outer : List (R × R)) : State R :=
  { outer, total := 0, before := 1, last := 0, stars := 0, word := [] }

/-- Takes a mark after a word has ended. -/
def mark (st : State R) : Char → State R
  | '+' => { st with total := st.total + st.before * st.last, before := 1, last := 0 }
  | '*' => { st with stars := st.stars + 1 }
  | '(' => start ((st.total, st.pending) :: st.outer)
  | ')' =>
    match st.outer with
    | [] => st
    | (total, before) :: outer =>
      { st with outer, total, before, last := st.total + st.before * st.last }
  | _ => st

end State

variable (value : List Char → R)

def step (st : State R) (c : Char) : State R :=
  if isMark c then (st.close value).mark c else { st with word := st.word ++ [c] }

def run (st : State R) (text : List Char) : State R :=
  (text.foldl (step value) st).close value

def result (text : List Char) : R :=
  let st := run value (State.start []) text
  st.total + st.before * st.last

theorem close_of_word_eq_nil {st : State R} (h : st.word = []) : st.close value = st := by
  unfold State.close
  rw [if_pos h]

theorem close_push (st : State R) (v : R) : (st.push v).close value = st.push v :=
  close_of_word_eq_nil value rfl

/-- A mark sees the word before it ended. -/
theorem step_mark (st : State R) {c : Char} (hc : isMark c = true) :
    step value st c = (st.close value).mark c := by
  unfold step
  rw [if_pos hc]

theorem foldl_word (st : State R) {w : List Char} (hw : ∀ c ∈ w, isMark c = false) :
    w.foldl (step value) st = { st with word := st.word ++ w } := by
  induction w generalizing st with
  | nil => simp
  | cons c w ih =>
    have hc : step value st c = { st with word := st.word ++ [c] } := by
      unfold step
      rw [if_neg (by simp [hw c])]
    rw [List.foldl_cons, hc, ih _ fun c' hc' => hw c' (List.mem_cons_of_mem _ hc')]
    simp

/-- Whether the text goes on or ends after a first part, that part ends with its word if a mark
follows. -/
theorem run_append_mark (st : State R) (u : List Char) {c : Char} (hc : isMark c = true)
    (w : List Char) :
    run value st (u ++ c :: w) = run value ((run value st u).mark c) w := by
  simp only [run, List.foldl_append, List.foldl_cons, step_mark value _ hc]

/-! ## What a text is read as -/

/-- Wherever a factor may stand, the text is taken for one factor. -/
def ReadsAtom (text : List Char) (v : R) : Prop :=
  ∀ st : State R, st.word = [] → st.stars ≤ 1 → run value st text = st.push v

/-- Wherever a factor may stand, the text multiplies. -/
def ReadsFactor (text : List Char) (v : R) : Prop :=
  ∀ st : State R, st.word = [] → st.stars ≤ 1 →
    ∃ before last : R, before * last = st.pending * v ∧
      run value st text = { st with before, last, stars := 0, word := [] }

/-- Wherever a term may stand, the text is added. -/
def ReadsTerm (text : List Char) (v : R) : Prop :=
  ∀ (outer : List (R × R)) (total : R), ∃ total' before last : R,
    total' + before * last = total + v ∧
      run value { State.start outer with total } text =
        { outer, total := total', before, last, stars := 0, word := [] }

variable {value}

theorem ReadsTerm.result_eq {text : List Char} {v : R} (h : ReadsTerm value text v) :
    result value text = v := by
  obtain ⟨total, before, last, hsum, hrun⟩ := h [] 0
  have hrun : run value (State.start []) text =
      { outer := [], total, before, last, stars := 0, word := [] } := hrun
  simp only [result, hrun, hsum, zero_add]

theorem ReadsAtom.readsFactor {text : List Char} {v : R} (h : ReadsAtom value text v) :
    ReadsFactor value text v :=
  fun st hword hstars => ⟨st.pending, v, rfl, h st hword hstars⟩

theorem ReadsFactor.readsTerm {text : List Char} {v : R} (h : ReadsFactor value text v) :
    ReadsTerm value text v := by
  intro outer total
  obtain ⟨before, last, hprod, hrun⟩ := h { State.start outer with total } rfl (Nat.zero_le 1)
  refine ⟨total, before, last, ?_, hrun⟩
  rw [hprod]
  simp [State.pending, State.start]

theorem readsAtom_word {w : List Char} (hw : IsWord w) : ReadsAtom value w (value w) := by
  intro st hword hstars
  rw [run, foldl_word value st hw.2, hword, List.nil_append]
  simp only [State.close, if_neg hw.1, if_pos hstars]
  rfl

theorem ReadsTerm.readsAtom_parens {text : List Char} {v : R} (h : ReadsTerm value text v) :
    ReadsAtom value ('(' :: text ++ [')']) v := by
  intro st hword hstars
  obtain ⟨total, before, last, hsum, hrun⟩ := h ((st.total, st.pending) :: st.outer) 0
  have hopen : run value st ('(' :: (text ++ [')'])) =
      run value (State.start ((st.total, st.pending) :: st.outer)) (text ++ [')']) := by
    have := run_append_mark value st [] (c := '(') rfl (text ++ [')'])
    rw [List.nil_append] at this
    rw [this]
    simp only [run, List.foldl_nil, close_of_word_eq_nil value hword]
    rfl
  have hrun : run value (State.start ((st.total, st.pending) :: st.outer)) text =
      { outer := (st.total, st.pending) :: st.outer, total, before, last, stars := 0,
        word := [] } := hrun
  rw [List.cons_append, hopen, run_append_mark value _ text (c := ')') rfl, hrun]
  simp only [run, List.foldl_nil, State.mark, hsum, zero_add]
  exact close_push value st v

theorem isWord_toDigits (n : Nat) : IsWord (Nat.toDigits 10 n) := by
  refine ⟨Nat.toDigits_ne_nil, fun c hc => ?_⟩
  have hdigit := Nat.isDigit_of_mem_toDigits (by omega) (by omega) hc
  by_contra hmark
  simp only [isMark, Bool.or_eq_true, beq_iff_eq, Bool.not_eq_false] at hmark
  rcases hmark with (((rfl | rfl) | rfl) | rfl) | rfl <;> revert hdigit <;> decide

theorem ReadsAtom.power {text : List Char} {v : R} (h : ReadsAtom value text v) (n : Nat) :
    ReadsAtom value (text ++ '*' :: '*' :: Nat.toDigits 10 n) (v ^ n) := by
  intro st hword hstars
  have hdigits := isWord_toDigits n
  rw [run_append_mark value _ text (c := '*') rfl, h st hword hstars]
  have hsecond := run_append_mark value ((st.push v).mark '*') [] (c := '*') rfl (Nat.toDigits 10 n)
  rw [List.nil_append] at hsecond
  rw [hsecond]
  rw [show (run value ((st.push v).mark '*') []).mark '*' = { st.push v with stars := 2 } from rfl,
    run, foldl_word value _ hdigits.2]
  simp only [State.close, State.push, List.nil_append, if_neg hdigits.1,
    Nat.ofDigitChars_ten_toDigits]
  rfl

theorem readsFactor_product (items : List (List Char × R)) (hne : items ≠ [])
    (h : ∀ p ∈ items, ReadsFactor value p.1 p.2) :
    ReadsFactor value (['*'].intercalate (items.map Prod.fst)) (items.map Prod.snd).prod := by
  induction items with
  | nil => exact absurd rfl hne
  | cons p rest ih =>
    have hfirst := h p List.mem_cons_self
    cases rest with
    | nil => simpa using hfirst
    | cons q rest =>
      have hrest := ih (List.cons_ne_nil q rest) fun r hr => h r (List.mem_cons_of_mem p hr)
      intro st hword hstars
      obtain ⟨before, last, hprod, hrun⟩ := hfirst st hword hstars
      obtain ⟨before', last', hprod', hrun'⟩ :=
        hrest { st with before, last, stars := 1, word := [] } rfl (Nat.le_refl 1)
      refine ⟨before', last', ?_, ?_⟩
      · have hall : ((p :: q :: rest).map Prod.snd).prod = p.2 * ((q :: rest).map Prod.snd).prod :=
          List.prod_cons
        rw [hprod', hall, ← mul_assoc, ← hprod]
        rfl
      · simp only [List.map_cons, List.intercalate_cons_cons, List.append_assoc,
          List.singleton_append] at hrun' ⊢
        rw [run_append_mark value _ p.1 (c := '*') rfl, hrun]
        exact hrun'

theorem readsTerm_sum (items : List (List Char × R))
    (h : ∀ p ∈ items, ReadsTerm value p.1 p.2) :
    ReadsTerm value ([' ', '+', ' '].intercalate (items.map Prod.fst))
      (items.map Prod.snd).sum := by
  induction items with
  | nil =>
    intro outer total
    refine ⟨total, 1, 0, by simp, ?_⟩
    rfl
  | cons p rest ih =>
    have hfirst := h p List.mem_cons_self
    cases rest with
    | nil => simpa using hfirst
    | cons q rest =>
      have hrest := ih fun r hr => h r (List.mem_cons_of_mem p hr)
      intro outer total
      obtain ⟨total', before, last, hsum, hrun⟩ := hfirst outer total
      obtain ⟨total'', before', last', hsum', hrun'⟩ := hrest outer (total' + before * last)
      refine ⟨total'', before', last', ?_, ?_⟩
      · have hall : ((p :: q :: rest).map Prod.snd).sum = p.2 + ((q :: rest).map Prod.snd).sum :=
          List.sum_cons
        rw [hsum', hsum, hall, add_assoc]
      · simp only [List.map_cons, List.intercalate_cons_cons, List.append_assoc] at hrun' ⊢
        have hblank := run_append_mark value { State.start outer with total } p.1 (c := ' ') rfl
        simp only [List.cons_append, List.nil_append]
        rw [hblank, hrun]
        exact hrun'

end Reader

/-! ## Numbers are words -/

theorem isWord_natRepr (n : Nat) : IsWord (Nat.repr n).toList := by
  rw [Nat.toList_repr]
  exact isWord_toDigits n

theorem IsWord.append {u w : List Char} (hu : IsWord u) (hw : IsWord w) : IsWord (u ++ w) := by
  refine ⟨by simp [hu.1], fun c hc => ?_⟩
  rcases List.mem_append.1 hc with hc | hc
  · exact hu.2 c hc
  · exact hw.2 c hc

theorem isWord_intRepr (z : Int) : IsWord (Int.repr z).toList := by
  rw [Int.repr_eq_if]
  split
  · exact isWord_natRepr _
  · rw [String.toList_append]
    exact .append (by simp [IsWord, isMark]) (isWord_natRepr _)

theorem isWord_ratText (q : ℚ) : IsWord (ratText q).toList := by
  unfold ratText
  split
  · exact isWord_intRepr _
  · simp only [String.toList_append]
    exact ((isWord_intRepr _).append (by simp [IsWord, isMark])).append (isWord_natRepr _)

end Reading

namespace Expr

open Reading

/-! ## Reading a tree -/

/-- The tree has no empty product, and its symbols are among the given ones. -/
inductive Spelt {K : Type} (S : Set Symbol) : Expr K → Prop where
  | const (c : K) : Spelt S (.const c)
  | symbol {s : Symbol} : s ∈ S → Spelt S (.symbol s)
  | sum {ts : List (Expr K)} : (∀ t ∈ ts, Spelt S t) → Spelt S (.sum ts)
  | product {ts : List (Expr K)} : ts ≠ [] → (∀ t ∈ ts, Spelt S t) → Spelt S (.product ts)
  | power {base : Expr K} (n : Nat) : Spelt S base → Spelt S (.power base n)

/-- The text of a factor, with a sum in parentheses. -/
def factorText {K : Type} [Scalar K] : Expr K → String
  | sum ts => "(" ++ text (sum ts) ++ ")"
  | e => text e

section Text
variable {K : Type} [Scalar K]

theorem termTexts_eq (ts : List (Expr K)) : termTexts ts = ts.map text := by
  induction ts with
  | nil => rfl
  | cons t ts ih => rw [termTexts, ih, List.map_cons]

theorem factorTexts_eq (ts : List (Expr K)) : factorTexts ts = ts.map factorText := by
  induction ts with
  | nil => rfl
  | cons t ts ih => cases t <;> simp [factorTexts, factorText, text, ih]

end Text

section Reads
variable {R : Type*} [CommRing R] [Algebra ℚ R] {x : Symbol → R} {value : List Char → R}
  {S : Set Symbol}

/-- A reader that knows the words reads the text of a tree as its value. -/
theorem readsTerm_text (hnumber : ∀ q : ℚ, value (ratText q).toList = algebraMap ℚ R q)
    (hword : ∀ s ∈ S, IsWord s.text.toList) (hsymbol : ∀ s ∈ S, value s.text.toList = x s)
    {e : Expr ℚ} (h : Spelt S e) :
    ReadsTerm value e.text.toList (e.eval x) ∧
      ReadsFactor value e.factorText.toList (e.eval x) := by
  induction h with
  | const c =>
    have hfactor : ReadsFactor value (ratText c).toList (algebraMap ℚ R c) := by
      rw [← hnumber]
      exact (readsAtom_word (isWord_ratText c)).readsFactor
    rw [eval_const]
    exact ⟨hfactor.readsTerm, hfactor⟩
  | @symbol s hs =>
    have hfactor : ReadsFactor value s.text.toList (x s) := by
      rw [← hsymbol s hs]
      exact (readsAtom_word (hword s hs)).readsFactor
    rw [eval_symbol]
    exact ⟨hfactor.readsTerm, hfactor⟩
  | @sum ts _ ih =>
    have hterm : ReadsTerm value (text (sum ts)).toList (eval x (sum ts)) := by
      have hall := readsTerm_sum (ts.map fun t => (t.text.toList, t.eval x)) (by
        intro p hp
        obtain ⟨t, ht, rfl⟩ := List.mem_map.1 hp
        exact (ih t ht).1)
      rw [text, String.toList_intercalate, termTexts_eq, eval_sum]
      simpa [Function.comp_def] using hall
    refine ⟨hterm, ?_⟩
    have hparens := hterm.readsAtom_parens.readsFactor
    simpa [factorText] using hparens
  | @product ts hne _ ih =>
    have hfactor : ReadsFactor value (text (product ts)).toList (eval x (product ts)) := by
      have hall := readsFactor_product (ts.map fun t => (t.factorText.toList, t.eval x))
        (by simpa using hne) (by
          intro p hp
          obtain ⟨t, ht, rfl⟩ := List.mem_map.1 hp
          exact (ih t ht).2)
      rw [text, String.toList_intercalate, factorTexts_eq, eval_product]
      simpa [Function.comp_def] using hall
    exact ⟨hfactor.readsTerm, hfactor⟩
  | @power base n hbase ih =>
    have hfactor : ReadsFactor value (text (power base n)).toList (eval x (power base n)) := by
      rw [eval_power]
      cases hbase with
      | symbol hs =>
        have hatom : ReadsAtom value _ _ := (readsAtom_word (hword _ hs)).power n
        rw [hsymbol _ hs] at hatom
        simpa [text] using hatom.readsFactor
      | _ =>
        have hatom := ih.1.readsAtom_parens.power n
        simpa [text] using hatom.readsFactor
    exact ⟨hfactor.readsTerm, hfactor⟩

end Reads

end Expr

end Semidefinite
