/-
ScriptMachine.Proofs.Documents — what configuration documents say.
-/
import Mathlib.Data.List.Basic
import ScriptMachine.Proofs.Numbers.Printing
import ScriptMachine.Settings.Reader

namespace ScriptMachine

namespace Scan

variable {α β : Type} {c : Char} {t rest : List Char}

@[simp] theorem bind_apply (x : Scan α) (f : α → Scan β) (t : List Char) :
    (x >>= f) t = (x t).bind fun r => f r.1 r.2 := rfl

@[simp] theorem map_apply (f : α → β) (x : Scan α) (t : List Char) :
    (f <$> x) t = (x t).bind fun r => .ok (f r.1, r.2) := rfl

@[simp] theorem discard_apply (x : Scan α) (t : List Char) :
    (discard x : Scan PUnit) t = (x t).bind fun r => .ok ((), r.2) := rfl

@[simp] theorem pure_apply (a : α) (t : List Char) : (pure a : Scan α) t = .ok (a, t) := rfl

@[simp] theorem throw_apply (e : Fault) (t : List Char) : (throw e : Scan α) t = .error e := rfl

@[simp] theorem ok_bind (a : α) (f : α → Except Fault β) : (Except.ok a).bind f = f a := rfl

@[simp] theorem get_apply (t : List Char) : (get : Scan (List Char)) t = .ok (t, t) := rfl

@[simp] theorem set_apply (u t : List Char) : (set u : Scan Unit) t = .ok ((), u) := rfl

@[simp] theorem modify_apply (f : List Char → List Char) (t : List Char) :
    (modify f : Scan Unit) t = .ok ((), f t) := rfl

@[simp] theorem peek?_apply (t : List Char) : peek? t = .ok (t.head?, t) := rfl

@[simp] theorem drop_cons (c : Char) (t : List Char) : drop (c :: t) = .ok ((), t) := rfl

@[simp] theorem next_cons (c : Char) (t : List Char) : next (c :: t) = .ok (c, t) := rfl

def Blanks (t : List Char) : Prop := ∀ c ∈ t, isBlank c = true

theorem token_blanks (h : Blanks t) (rest : List Char) : token (t ++ rest) = token rest := by
  simp [token, token?, List.dropWhile_append_of_pos h]

@[simp] theorem token_cons (h : isBlank c = false) (t : List Char) :
    token (c :: t) = .ok (c, c :: t) := by
  simp [token, token?, h]

theorem expect_blanks (h : Blanks t) (c : Char) (hc : isBlank c = false) (rest : List Char) :
    expect c (t ++ c :: rest) = .ok ((), rest) := by
  simp [expect, token_blanks h, hc]

inductive Quoted : Option (List Char) → List Char → Prop
  | close : Quoted (some []) ['"']
  | plain {c m t} : c ≠ '"' → c ≠ '\\' → 0x20 ≤ c.toNat → Quoted m t →
      Quoted (m.map (c :: ·)) (c :: t)
  | escape {e c m t} : escaped? e = some c → Quoted m t → Quoted (m.map (c :: ·)) ('\\' :: e :: t)
  | unit {a b c d n m t} : hexUnit? a b c d = some n → Quoted m t →
      Quoted (if isLeading n || isTrailing n then none else m.map (Char.ofNat n :: ·))
        ('\\' :: 'u' :: a :: b :: c :: d :: t)
  | pair {a b c d n a' b' c' d' n' m t} : hexUnit? a b c d = some n → isLeading n = true →
      hexUnit? a' b' c' d' = some n' → isTrailing n' = true → Quoted m t →
      Quoted (m.map (joinPair n n' :: ·))
        ('\\' :: 'u' :: a :: b :: c :: d :: '\\' :: 'u' :: a' :: b' :: c' :: d' :: t)

theorem ne_of_escaped {d : Char} (h : escaped? c = some d) : c ≠ 'u' := by
  rintro rfl
  cases h

namespace Quoted

variable {m : Option (List Char)}

theorem afterText (h : Quoted m t) (rest : List Char) : afterText (t ++ rest) = .ok rest := by
  induction h with
  | close => simp [Scan.afterText]
  | plain hq hs hc _ ih => simp [Scan.afterText, Nat.not_lt.mpr hc, ih]
  | escape he _ ih => simp [Scan.afterText, ne_of_escaped he, he, ih]
  | unit hn _ ih => simp [Scan.afterText, hn, ih]
  | pair hn _ hn' _ _ ih => simp [Scan.afterText, hn, hn', ih]

theorem textFrom (h : Quoted m t) {cs : List Char} (hm : m = some cs) (done rest : List Char) :
    textFrom done (t ++ rest) = .ok (String.ofList (done.reverse ++ cs), rest) := by
  induction h generalizing cs done with
  | close =>
    cases hm
    simp [Scan.textFrom]
  | plain hq hs hc _ ih =>
    obtain ⟨cs, hcs, rfl⟩ := Option.map_eq_some_iff.mp hm
    simp [Scan.textFrom, Nat.not_lt.mpr hc, ih hcs]
  | escape he _ ih =>
    obtain ⟨cs, hcs, rfl⟩ := Option.map_eq_some_iff.mp hm
    simp [Scan.textFrom, ne_of_escaped he, he, ih hcs]
  | unit hn _ ih =>
    split at hm
    · cases hm
    · next hl =>
      obtain ⟨cs, hcs, rfl⟩ := Option.map_eq_some_iff.mp hm
      simp only [Bool.or_eq_true, not_or, Bool.not_eq_true] at hl
      simp [Scan.textFrom, hn, hl, ih hcs]
  | @pair _ _ _ _ n _ _ _ _ n' _ _ hn hlead hn' ht _ ih =>
    obtain ⟨cs, hcs, rfl⟩ := Option.map_eq_some_iff.mp hm
    have hnot : isTrailing n = false := by
      simp only [isLeading, isTrailing, Bool.and_eq_true, decide_eq_true_eq] at hlead ⊢
      simp
      omega
    simp [Scan.textFrom, hn, hlead, hnot, hn', ht, ih hcs]

end Quoted

def Ends (rest : List Char) : Prop :=
  ∀ c ∈ rest.head?, c.isDigit = false ∧ c ≠ '.' ∧ c ≠ 'e' ∧ c ≠ 'E'

def Reads (x : Scan α) (t : List Char) (a : α) : Prop :=
  ∀ {rest}, Ends rest → x (t ++ rest) = .ok (a, rest)

def SomeDigits (ds : List Char) : Prop := ds ≠ [] ∧ ∀ c ∈ ds, c.isDigit = true

def Whole (ds : List Char) : Prop := SomeDigits ds ∧ (ds.head? = some '0' → ds = ['0'])

def Fractional (t : List Char) : Prop := t = [] ∨ ∃ ds, SomeDigits ds ∧ t = '.' :: ds

def Power (t : List Char) : Prop := t = [] ∨ ∃ mark sign ds, (mark = 'e' ∨ mark = 'E') ∧
  (sign = [] ∨ sign = ['+'] ∨ sign = ['-']) ∧ SomeDigits ds ∧ t = mark :: (sign ++ ds)

def Numeric (t : List Char) : Prop :=
  ∃ w f p, Whole w ∧ Fractional f ∧ Power p ∧ t = w ++ (f ++ p)

theorem digits_append {ds : List Char} (h : ∀ c ∈ ds, c.isDigit = true)
    (hr : Number.NoDigit rest) : digits (ds ++ rest) = .ok (ds, rest) := by
  simp only [digits, bind_apply, get_apply, ok_bind, set_apply, pure_apply,
    List.takeWhile_append_of_pos h, List.dropWhile_append_of_pos h]
  cases rest with
  | nil => simp
  | cons c rest => simp [hr c rfl]

theorem Ends.noDigit (h : Ends rest) : Number.NoDigit rest := fun c hc => (h c hc).1

theorem Whole.reads {w : List Char} (h : Whole w) (hr : Number.NoDigit rest) :
    wholeDigits (w ++ rest) = .ok (w, rest) := by
  obtain ⟨⟨hne, hds⟩, hz⟩ := h
  cases w with
  | nil => exact absurd rfl hne
  | cons c ds =>
    by_cases hc : c = '0'
    · obtain rfl : ds = [] := by simpa [hc] using hz
      cases rest with
      | nil => simp [wholeDigits, hc]
      | cons d rest => simp [wholeDigits, hc, hr d rfl]
    · have hrun := digits_append (fun d hd => hds d (List.mem_cons_of_mem c hd)) hr
      simp [wholeDigits, hc, hds c List.mem_cons_self, hrun]

theorem SomeDigits.skips {ds : List Char} (h : SomeDigits ds) (hr : Number.NoDigit rest) :
    skipDigits (ds ++ rest) = .ok ((), rest) := by
  simp [skipDigits, digits_append h.2 hr, h.1]

theorem Power.reads (h : Power t) : Reads skipPower t () := by
  intro rest hr
  rcases h with rfl | ⟨mark, sign, ds, hm, hsign, hds, rfl⟩
  · cases rest with
    | nil => simp [skipPower]
    | cons c rest => simp [skipPower, hr c rfl]
  · have hs := hds.skips hr.noDigit
    rcases hsign with rfl | rfl | rfl
    · obtain ⟨d, ds, rfl⟩ := List.exists_cons_of_ne_nil hds.1
      have hd := hds.2 d List.mem_cons_self
      have hsign : d ≠ '+' ∧ d ≠ '-' := by
        constructor <;> rintro rfl <;> cases hd
      rw [List.cons_append] at hs
      simp [skipPower, hm, hsign, hs]
    · simp [skipPower, hm, hs]
    · simp [skipPower, hm, hs]

theorem Power.noDigit (h : Power t) (hr : Ends rest) :
    ∀ c ∈ (t ++ rest).head?, c.isDigit = false ∧ c ≠ '.' := by
  rcases h with rfl | ⟨mark, sign, ds, rfl | rfl, _, _, rfl⟩
  · exact fun c hc => ⟨(hr c hc).1, (hr c hc).2.1⟩
  all_goals
    rintro c ⟨⟩
    exact ⟨rfl, by decide⟩

theorem Numeric.reads (h : Numeric t) : Reads skipNumber t () := by
  intro rest hr
  obtain ⟨w, f, p, hw, hf, hp, rfl⟩ := h
  have ht := hp.noDigit hr
  have hpower := hp.reads hr
  have hfrac : skipFraction (f ++ (p ++ rest)) = .ok ((), p ++ rest) := by
    rcases hf with rfl | ⟨ds, hds, rfl⟩
    · cases hcs : p ++ rest with
      | nil => simp [skipFraction]
      | cons c cs => simp [skipFraction, (ht c (by rw [hcs]; rfl)).2]
    · simp [skipFraction, hds.skips fun c hc => (ht c hc).1]
  have hwhole : wholeDigits (w ++ (f ++ (p ++ rest))) = .ok (w, f ++ (p ++ rest)) := by
    refine hw.reads ?_
    rcases hf with rfl | ⟨ds, _, rfl⟩
    · exact fun c hc => (ht c hc).1
    · rintro c ⟨⟩
      rfl
  obtain ⟨d, ds, rfl⟩ := List.exists_cons_of_ne_nil hw.1.1
  simp only [List.append_assoc, List.cons_append] at hwhole ⊢
  simp [skipNumber, hwhole, hfrac, hpower]

def Bracket.opening : Bracket → Char
  | .list => '['
  | .object => '\x7b'

def KeyText (meaning : Option (List Char)) (t : List Char) : Prop := ∃ before body after,
  Blanks before ∧ Quoted meaning body ∧ Blanks after ∧
    t = before ++ '"' :: (body ++ (after ++ [':']))

def Before : Bracket → List Char → Prop
  | .list, t => t = []
  | .object, t => ∃ meaning, KeyText meaning t

inductive Place where
  | value
  | after (b : Bracket)

inductive Json : Place → List Char → Prop
  | blank {place : Place} {c : Char} {t : List Char} : isBlank c = true → Json place t →
      Json place (c :: t)
  | null : Json .value ['n', 'u', 'l', 'l']
  | yes : Json .value ['t', 'r', 'u', 'e']
  | no : Json .value ['f', 'a', 'l', 's', 'e']
  | text {m : Option (List Char)} {t : List Char} : Quoted m t → Json .value ('"' :: t)
  | number {t : List Char} : Numeric t → Json .value t
  | negative {t : List Char} : Numeric t → Json .value ('-' :: t)
  | empty (b : Bracket) {t : List Char} : Blanks t → Json .value (b.opening :: (t ++ [b.closing]))
  | filled {b : Bracket} {k v t : List Char} : Before b k → Json .value v → Json (.after b) t →
      Json .value (b.opening :: (k ++ (v ++ t)))
  | close (b : Bracket) : Json (.after b) [b.closing]
  | next {b : Bracket} {k v t : List Char} : Before b k → Json .value v → Json (.after b) t →
      Json (.after b) (',' :: (k ++ (v ++ t)))

def resume (fuel : Nat) (stack : List Bracket) : Scan Unit := do
  let stack ← skipEnds false stack
  if stack.isEmpty then return () else skipOpen fuel stack

theorem isBlank_of_isDigit (h : c.isDigit = true) : isBlank c = false := by
  by_contra hne
  simp only [isBlank, Bool.not_eq_false, Bool.or_eq_true, beq_iff_eq] at hne
  rcases hne with ((rfl | rfl) | rfl) | rfl <;> cases h

theorem ends_of_blank (h : isBlank c = true) : c.isDigit = false ∧ c ≠ '.' ∧ c ≠ 'e' ∧ c ≠ 'E' := by
  simp only [isBlank, Bool.or_eq_true, beq_iff_eq] at h
  rcases h with ((rfl | rfl) | rfl) | rfl <;> decide

theorem Json.ends {b : Bracket} (h : Json (.after b) t) : Ends (t ++ rest) := by
  cases h with
  | blank hc =>
    rintro c ⟨⟩
    exact ends_of_blank hc
  | close =>
    rintro c ⟨⟩
    cases b <;> decide
  | next =>
    rintro c ⟨⟩
    decide

theorem KeyText.skips {m : Option (List Char)} {k : List Char} (h : KeyText m k)
    (rest : List Char) : skipKey (k ++ rest) = .ok ((), rest) := by
  obtain ⟨before, body, after, hbef, hb, ha, rfl⟩ := h
  have hc := expect_blanks ha ':' (by decide) rest
  have ht : skipText (body ++ (after ++ ':' :: rest)) = .ok ((), after ++ ':' :: rest) := by
    simp [skipText, hb.afterText]
  simp [skipKey, expect_blanks hbef '"' (by decide), ht, hc]

theorem skipStart_digit (h : c.isDigit = true) (t : List Char) :
    skipStart (c :: t) = (skipNumber (c :: t)).bind fun r => .ok (none, r.2) := by
  simp only [skipStart, bind_apply, token_cons (isBlank_of_isDigit h), ok_bind, drop_cons]
  split <;> first | cases h | simp [h]

theorem skipOpen_blanks (h : Blanks t) (fuel : Nat) (stack : List Bracket) (rest : List Char) :
    skipOpen fuel stack (t ++ rest) = skipOpen fuel stack rest := by
  cases fuel with
  | zero => rfl
  | succ fuel => simp [skipOpen, skipStart, token_blanks h]

theorem resume_blanks (h : Blanks t) (fuel : Nat) (b : Bracket) (stack : List Bracket)
    (rest : List Char) : resume fuel (b :: stack) (t ++ rest) = resume fuel (b :: stack) rest := by
  simp [resume, skipEnds, token_blanks h]

def Begins (t : List Char) : Prop :=
  ∃ blanks c u, Blanks blanks ∧ isBlank c = false ∧ c ≠ ']' ∧ t = blanks ++ c :: u

theorem Bracket.begins_opening (b : Bracket) (t : List Char) : Begins (b.opening :: t) :=
  ⟨[], b.opening, t, nofun, by cases b <;> decide, by cases b <;> decide, rfl⟩

def Skipped (t : List Char) : Place → Prop
  | .value => Begins t ∧ ∀ {rest fuel} (stack : List Bracket), Ends rest →
      (t ++ rest).length < fuel →
        ∃ fuel', rest.length < fuel' ∧ skipOpen fuel stack (t ++ rest) = resume fuel' stack rest
  | .after b => ∀ {rest fuel} (stack : List Bracket), (t ++ rest).length < fuel →
      ∃ fuel', rest.length < fuel' ∧ resume fuel (b :: stack) (t ++ rest) = resume fuel' stack rest

theorem Skipped.of_start (hc : isBlank c = false ∧ c ≠ ']')
    (h : ∀ {rest}, Ends rest → skipStart (c :: (t ++ rest)) = .ok (none, rest)) :
    Skipped (c :: t) .value := by
  refine ⟨⟨[], c, t, nofun, hc.1, hc.2, rfl⟩, fun {rest fuel} stack hr hf => ?_⟩
  obtain ⟨fuel, rfl⟩ := Nat.exists_eq_succ_of_ne_zero (Nat.ne_zero_of_lt hf)
  simp only [List.cons_append, List.length_cons, List.length_append] at hf
  exact ⟨fuel, by omega, by simp [skipOpen, resume, h hr]⟩

theorem skipEnds_fresh {b : Bracket} {k v : List Char} (hk : Before b k) (hv : Begins v)
    (stack : List Bracket) (rest : List Char) :
    ∃ y, skipEnds true (b :: stack) (k ++ (v ++ rest)) = .ok (b :: stack, y) ∧
      ∀ fuel, skipOpen fuel (b :: stack) y = skipOpen fuel (b :: stack) (v ++ rest) := by
  cases b with
  | list =>
    cases hk
    obtain ⟨blanks, c, u, hblanks, hc, hne, rfl⟩ := hv
    refine ⟨c :: (u ++ rest), ?_, fun fuel => ?_⟩
    · simp [skipEnds, Bracket.closing, token_blanks hblanks, hc, hne]
    · simp [skipOpen_blanks hblanks]
  | object =>
    obtain ⟨m, before, body, after, hbef, hb, ha, rfl⟩ := hk
    have hkey : KeyText m ('"' :: (body ++ (after ++ [':']))) :=
      ⟨[], body, after, nofun, hb, ha, rfl⟩
    have hs := hkey.skips (v ++ rest)
    simp only [List.cons_append, List.append_assoc, List.nil_append] at hs
    simp [skipEnds, Bracket.closing, token_blanks hbef, isBlank, hs]

theorem resume_comma {b : Bracket} {k : List Char} (hk : Before b k) (fuel : Nat)
    (stack : List Bracket) (rest : List Char) :
    resume fuel (b :: stack) (',' :: (k ++ rest)) = skipOpen fuel (b :: stack) rest := by
  cases b with
  | list =>
    cases hk
    simp [resume, skipEnds, expect, Bracket.closing, isBlank]
  | object =>
    obtain ⟨m, hkey⟩ := hk
    simp [resume, skipEnds, expect, Bracket.closing, isBlank, hkey.skips]

theorem resume_close (b : Bracket) (fuel : Nat) (stack : List Bracket) (rest : List Char) :
    resume fuel (b :: stack) (b.closing :: rest) = resume fuel stack rest := by
  cases b <;> simp [resume, skipEnds, Bracket.closing, isBlank]

theorem skipStart_opening (b : Bracket) (rest : List Char) :
    skipStart (b.opening :: rest) = .ok (some b, rest) := by
  cases b <;> simp [skipStart, Bracket.opening, isBlank]

theorem Json.skipped {place : Place} (h : Json place t) : Skipped t place := by
  induction h with
  | @blank place c t hc _ ih =>
    have hblank : Blanks [c] := by simpa [Blanks] using hc
    cases place with
    | value =>
      obtain ⟨⟨blanks, d, u, hbla, hd, hne, rfl⟩, hs⟩ := ih
      refine ⟨⟨c :: blanks, d, u, ?_, hd, hne, rfl⟩, fun {rest fuel} stack hr hf => ?_⟩
      · simpa [Blanks, hc] using hbla
      · obtain ⟨fuel', hf', heq⟩ := hs stack hr (Nat.lt_of_succ_lt hf)
        exact ⟨fuel', hf', (skipOpen_blanks hblank fuel stack _).trans heq⟩
    | after b =>
      intro rest fuel stack hf
      obtain ⟨fuel', hf', heq⟩ := ih stack (Nat.lt_of_succ_lt hf)
      exact ⟨fuel', hf', (resume_blanks hblank fuel b stack _).trans heq⟩
  | null => exact Skipped.of_start (by decide) fun _ => by simp [skipStart, word, isBlank]
  | yes => exact Skipped.of_start (by decide) fun _ => by simp [skipStart, word, isBlank]
  | no => exact Skipped.of_start (by decide) fun _ => by simp [skipStart, word, isBlank]
  | text hq =>
    exact Skipped.of_start (by decide) fun _ => by simp [skipStart, isBlank, skipText, hq.afterText]
  | number hn =>
    have hreads {rest : List Char} (hr : Ends rest) := hn.reads hr
    obtain ⟨w, f, p, hw, _, _, rfl⟩ := hn
    obtain ⟨d, ds, rfl⟩ := List.exists_cons_of_ne_nil hw.1.1
    have hd := hw.1.2 d List.mem_cons_self
    refine Skipped.of_start ⟨isBlank_of_isDigit hd, by rintro rfl; cases hd⟩ fun {rest} hr => ?_
    have hs := hreads hr
    simp only [List.cons_append, List.append_assoc] at hs
    simp [skipStart_digit hd, hs]
  | negative hn =>
    exact Skipped.of_start (by decide) fun hr => by simp [skipStart, isBlank, hn.reads hr]
  | @empty b t hb =>
    refine ⟨b.begins_opening _, fun {rest fuel} stack hr hf => ?_⟩
    obtain ⟨fuel, rfl⟩ := Nat.exists_eq_succ_of_ne_zero (Nat.ne_zero_of_lt hf)
    simp only [List.cons_append, List.append_assoc, List.length_cons, List.length_append] at hf ⊢
    refine ⟨fuel, by omega, ?_⟩
    cases b <;>
      simp [skipOpen, skipStart_opening, skipEnds, resume, token_blanks hb, Bracket.closing,
        isBlank]
  | @filled b k v t hk _ ht ihv iht =>
    obtain ⟨hbeg, hs⟩ := ihv
    refine ⟨b.begins_opening _, fun {rest fuel} stack hr hf => ?_⟩
    obtain ⟨fuel, rfl⟩ := Nat.exists_eq_succ_of_ne_zero (Nat.ne_zero_of_lt hf)
    simp only [List.cons_append, List.append_assoc, List.length_cons, List.length_append] at hf ⊢
    obtain ⟨y, hy, ho⟩ := skipEnds_fresh hk hbeg stack (t ++ rest)
    have hlen : (v ++ (t ++ rest)).length < fuel := by simp; omega
    obtain ⟨fuel1, hf1, hval⟩ := hs (b :: stack) ht.ends hlen
    obtain ⟨fuel2, hf2, hr⟩ := iht stack hf1
    refine ⟨fuel2, hf2, ?_⟩
    simp [skipOpen, skipStart_opening, hy, ho, hval, hr]
  | close b =>
    intro rest fuel stack hf
    exact ⟨fuel, Nat.lt_of_succ_lt hf, resume_close b fuel stack rest⟩
  | @next b k v t hk _ ht ihv iht =>
    intro rest fuel stack hf
    simp only [List.cons_append, List.append_assoc, List.length_cons, List.length_append] at hf ⊢
    rw [resume_comma hk]
    have hlen : (v ++ (t ++ rest)).length < fuel := by simp; omega
    obtain ⟨fuel1, hf1, hval⟩ := ihv.2 (b :: stack) ht.ends hlen
    obtain ⟨fuel2, hf2, hr⟩ := iht stack hf1
    exact ⟨fuel2, hf2, hval.trans hr⟩

theorem Json.skips (h : Json .value t) : Reads skipValue t () := by
  intro rest hr
  obtain ⟨fuel, _, heq⟩ := h.skipped.2 [] hr (Nat.lt_succ_self _)
  exact heq.trans (by simp [resume, skipEnds])

end Scan

open Scan

variable {ρ M : Type}

structure Form (ρ M : Type) where
  fields : List (Field ρ)
  key : M → String
  Writes : M → List Char → Prop
  set : ρ → M → ρ
  fine : M → Bool
  known : ∀ {m field}, fields.find? (·.name == key m) = some field → ∀ {v}, Writes m v →
    ∀ (s : ρ) {rest}, Ends rest → field.read s (v ++ rest) =
      if fine m then .ok (set s m, rest) else .error .meaningless
  other : ∀ {m}, fields.find? (·.name == key m) = none → (∀ {v}, Writes m v → Json .value v) ∧
    ∀ s, set s m = s

namespace Form

variable (F : Form ρ M)

def knows (m : M) : Bool := (F.fields.find? (·.name == F.key m)).isSome

def sound : List String → List M → Bool
  | _, [] => true
  | seen, m :: ms =>
    if F.knows m then !seen.contains (F.key m) && F.fine m && sound (F.key m :: seen) ms
    else sound seen ms

def Distinct (ms : List M) : Prop := ((ms.filter F.knows).map F.key).Nodup

theorem sound_iff (seen : List String) (ms : List M) : F.sound seen ms = true ↔
    F.Distinct ms ∧ ∀ m ∈ ms, F.knows m = true → F.key m ∉ seen ∧ F.fine m = true := by
  induction ms generalizing seen with
  | nil => simp [sound, Distinct]
  | cons m ms ih =>
    cases hm : F.knows m with
    | false => simpa [sound, Distinct, hm] using ih seen
    | true =>
      have hmem : F.key m ∈ (ms.filter F.knows).map F.key ↔
          ∃ m' ∈ ms, F.knows m' = true ∧ F.key m' = F.key m := by
        simp [and_assoc]
      simp only [sound, hm, if_true, Bool.and_eq_true, ih, Distinct, List.filter_cons,
        List.map_cons, List.nodup_cons, hmem, List.mem_cons]
      grind

theorem project_foldl {β : Type} (project : ρ → β) (said? : M → Option β) (key : String)
    (hset : ∀ s m, project (F.set s m) = (said? m).getD (project s))
    (hkey : ∀ m b, said? m = some b → F.knows m = true ∧ F.key m = key) {ms : List M}
    (h : F.Distinct ms) (s : ρ) :
    project (ms.foldl F.set s) = (ms.findSome? said?).getD (project s) := by
  induction ms generalizing s with
  | nil => rfl
  | cons m ms ih =>
    have ht : F.Distinct ms := h.sublist (((List.sublist_cons_self m ms).filter _).map _)
    rw [List.foldl_cons, ih ht, hset, List.findSome?_cons]
    cases hm : said? m with
    | none => rfl
    | some b =>
      have hn : ms.findSome? said? = none := by
        rw [List.findSome?_eq_none_iff]
        intro m' hm'
        by_contra hs
        obtain ⟨b', hb'⟩ := Option.ne_none_iff_exists'.mp hs
        obtain ⟨hk, rfl⟩ := hkey m b hm
        obtain ⟨hk', hsame⟩ := hkey m' b' hb'
        simp only [Distinct, List.filter_cons, hk, if_true, List.map_cons,
          List.nodup_cons] at h
        exact h.1 (hsame ▸ List.mem_map_of_mem (List.mem_filter.mpr ⟨hm', hk'⟩))
      simp [hn]

inductive Members : Bool → List M → List Char → Prop
  | close (first : Bool) {blanks : List Char} : Blanks blanks →
      Members first [] (blanks ++ ['\x7d'])
  | member {first : Bool} {comma k v t : List Char} {m : M} {ms : List M} :
      (if first then comma = [] else ∃ blanks, Blanks blanks ∧ comma = blanks ++ [',']) →
      KeyText (some (F.key m).toList) k → F.Writes m v → Members false ms t →
      Members first (m :: ms) (comma ++ (k ++ (v ++ t)))

variable {F} {ms : List M} {t rest : List Char}

theorem Members.ends (h : F.Members false ms t) : Ends (t ++ rest) := by
  have he {blanks u : List Char} {c : Char} (hb : Blanks blanks)
      (hc : c.isDigit = false ∧ c ≠ '.' ∧ c ≠ 'e' ∧ c ≠ 'E') : Ends (blanks ++ c :: u) := by
    cases blanks with
    | nil =>
      rintro d ⟨⟩
      exact hc
    | cons b blanks =>
      rintro d ⟨⟩
      exact ends_of_blank (hb _ List.mem_cons_self)
  cases h with
  | close _ hb => simpa using he hb (by decide)
  | member hcomma =>
    obtain ⟨blanks, hb, rfl⟩ := hcomma
    simpa using he hb (by decide)

theorem member_eq {m : M} {k v : List Char} (hkey : KeyText (some (F.key m).toList) k)
    (hwr : F.Writes m v) (hr : Ends rest) (others : List String → ρ → Scan ρ)
    (seen : List String) (s : ρ) : member F.fields others seen s (k ++ (v ++ rest)) =
      if F.knows m then
        if !seen.contains (F.key m) && F.fine m then others (F.key m :: seen) (F.set s m) rest
        else .error .meaningless
      else others seen s rest := by
  obtain ⟨before, body, after, hbef, hb, ha, rfl⟩ := hkey
  have ht (u : List Char) : text (body ++ u) = .ok (F.key m, u) := by
    simp [text, hb.textFrom rfl]
  have hq := expect_blanks hbef '"' (by decide)
  have hc := expect_blanks ha ':' (by decide)
  simp only [List.append_assoc, List.cons_append, List.nil_append, member, bind_apply, hq,
    ok_bind, ht]
  cases hf : F.fields.find? (·.name == F.key m) with
  | none =>
    have hk : F.knows m = false := by simp [knows, hf]
    simp [hk, hc, ((F.other hf).1 hwr).skips hr]
  | some field =>
    have hk : F.knows m = true := by simp [knows, hf]
    have hread := F.known hf hwr s hr
    cases hs : seen.contains (F.key m) with
    | true => simp [hk, Except.bind]
    | false => cases hfine : F.fine m <;> simp [hk, hc, hread, hfine, Except.bind]

theorem Members.reads {first : Bool} (h : F.Members first ms t) {fuel : Nat} (seen : List String)
    (s : ρ) (hf : (t ++ rest).length < fuel) :
    members F.fields fuel first seen s (t ++ rest) =
      if F.sound seen ms then .ok (ms.foldl F.set s, rest) else .error .meaningless := by
  induction h generalizing fuel seen s with
  | close first hblanks =>
    obtain ⟨fuel, rfl⟩ := Nat.exists_eq_succ_of_ne_zero (Nat.ne_zero_of_lt hf)
    simp [members, token_blanks hblanks, isBlank, sound]
  | @member first comma k v t m ms hc hkey hwrites hms ih =>
    obtain ⟨fuel, rfl⟩ := Nat.exists_eq_succ_of_ne_zero (Nat.ne_zero_of_lt hf)
    have hlength : 0 < k.length := by
      obtain ⟨before, body, after, _, _, _, rfl⟩ := hkey
      simp
    have hn (seen : List String) (s : ρ) : members F.fields fuel false seen s (t ++ rest) = _ :=
      ih seen s (by simp at hf ⊢; omega)
    have he : Ends (t ++ rest) := hms.ends
    have hmember := member_eq hkey hwrites he (members F.fields fuel false) seen s
    have hstep : members F.fields (fuel + 1) first seen s (comma ++ (k ++ (v ++ t)) ++ rest) =
        Scan.member F.fields (members F.fields fuel false) seen s (k ++ (v ++ (t ++ rest))) := by
      cases first with
      | true =>
        obtain rfl : comma = [] := by simpa using hc
        obtain ⟨before, body, after, hbefore, _, _, rfl⟩ := hkey
        simp [members, Scan.member, expect, token_blanks hbefore, isBlank]
      | false =>
        obtain ⟨blanks, hblanks, rfl⟩ : ∃ blanks, Blanks blanks ∧ comma = blanks ++ [','] := by
          simpa using hc
        simp [members, expect, token_blanks hblanks, isBlank]
    rw [hstep, hmember, sound, List.foldl_cons]
    cases hk : F.knows m with
    | false =>
      obtain hfind : F.fields.find? (·.name == F.key m) = none := by simpa [knows] using hk
      simp [hn, (F.other hfind).2]
    | true =>
      cases hg : !seen.contains (F.key m) && F.fine m <;> simp [hn]

/-- A record as an object, after blanks. -/
def Writing (F : Form ρ M) (ms : List M) (t : List Char) : Prop :=
  ∃ blanks u, Blanks blanks ∧ F.Members true ms u ∧ t = blanks ++ '\x7b' :: u

theorem Writing.reads (h : F.Writing ms t) (default : ρ) (rest : List Char) :
    record F.fields default (t ++ rest) =
      if F.sound [] ms then .ok (ms.foldl F.set default, rest) else .error .meaningless := by
  obtain ⟨blanks, u, hblanks, hms, rfl⟩ := h
  have hr := hms.reads [] default (Nat.lt_succ_self (u ++ rest).length)
  simpa [record, token_blanks hblanks, isBlank] using hr

end Form

namespace Scan

theorem le_ofDigitChars (ds : List Char) (n : Nat) : n ≤ Nat.ofDigitChars 10 ds n := by
  induction ds generalizing n with
  | nil => exact Nat.le_refl n
  | cons d ds ih =>
    rw [Nat.ofDigitChars_cons]
    exact Nat.le_trans (by omega) (ih _)

theorem leading_eq {ds : List Char} {n : Nat}
    (h : Nat.ofDigitChars 10 ds n < 0x10000000000000000) :
    leading n ds = (Nat.ofDigitChars 10 ds n, 0) := by
  induction ds generalizing n with
  | nil => rfl
  | cons d ds ih =>
    rw [Nat.ofDigitChars_cons, Nat.mul_comm] at h ⊢
    have hg := Nat.lt_of_le_of_lt (le_ofDigitChars ds _) h
    exact (if_pos hg).trans (ih h)

theorem whole_digitsOf (n : Nat) : Whole (Number.digitsOf n) := by
  refine ⟨⟨Nat.toDigits_ne_nil, (Number.Digits.ofNat n).isDigit⟩, fun hz => ?_⟩
  by_cases hn : n = 0
  · subst hn
    rfl
  · exact absurd hz (Number.head?_digitsOf hn)

theorem count_reads (n : UInt64) : Reads count (toString n).toList n := by
  intro rest hr
  have hdigits : (toString n).toList = Number.digitsOf n.toNat := by
    show (toString n.toNat).toList = _
    simp [Number.digitsOf]
  have hw := whole_digitsOf n.toNat
  have hread := hw.reads hr.noDigit
  have hk : leading 0 (Number.digitsOf n.toNat) = (n.toNat, 0) := by
    have hv : Nat.ofDigitChars 10 (Number.digitsOf n.toNat) 0 = n.toNat :=
      Nat.ofDigitChars_ten_toDigits
    rw [leading_eq (hv.trans_lt n.toNat_lt), hv]
  have hnumber : number false (Number.digitsOf n.toNat ++ rest) = .ok (some n.toNat, rest) := by
    have hp : rest.head? ≠ some '.' := fun h => (hr _ h).2.1 rfl
    have he : rest.head? ≠ some 'e' := fun h => (hr _ h).2.2.1 rfl
    have hE : rest.head? ≠ some 'E' := fun h => (hr _ h).2.2.2 rfl
    simp [number, wholePart, hread, hk, hp, he, hE]
  rw [hdigits]
  obtain ⟨d, ds, hds⟩ := List.exists_cons_of_ne_nil hw.1.1
  rw [hds] at hnumber hw ⊢
  have hd := hw.1.2 d List.mem_cons_self
  have hm : d ≠ '-' := by
    rintro rfl
    cases hd
  simp only [List.cons_append] at hnumber
  simp [count, isBlank_of_isDigit hd, hm, hd, hnumber]

theorem truth_reads (b : Bool) : Reads truth (toString b).toList b := by
  intro rest hr
  cases b with
  | true =>
    show truth ('t' :: 'r' :: 'u' :: 'e' :: rest) = _
    simp [truth, isBlank, word]
  | false =>
    show truth ('f' :: 'a' :: 'l' :: 's' :: 'e' :: rest) = _
    simp [truth, isBlank, word]

def Spelled (t v : List Char) : Prop := ∃ blanks, Blanks blanks ∧ v = blanks ++ t

theorem Reads.spelled {α : Type} {f : Char → Scan α} {t v : List Char} {a : α}
    (h : Reads (token >>= f) t a) (hv : Spelled t v) : Reads (token >>= f) v a := by
  obtain ⟨blanks, hblanks, rfl⟩ := hv
  intro rest hr
  rw [List.append_assoc, bind_apply, token_blanks hblanks]
  exact h hr

theorem level_reads {l : OptLevel} {t : List Char} (h : Quoted (some l.name.toList) t) :
    Reads level ('"' :: t) l := by
  intro rest hr
  have hn : OptLevel.ofName? l.name = some l := by cases l <;> rfl
  simp [level, levelNamed, text, h.textFrom rfl, isBlank, hn]

end Scan

attribute [ext] EngineSettings SessionSettings

inductive EngineMember where
  | workers (n : UInt64)
  | optLevel (level : OptLevel)
  | verify (b : Bool)
  | other (key : String) (unknown : key ∉ EngineSettings.fields.map (·.name))

namespace EngineMember

def key : EngineMember → String
  | .workers _ => "worker_threads"
  | .optLevel _ => "opt_level"
  | .verify _ => "verify"
  | .other key _ => key

def set (s : EngineSettings) : EngineMember → EngineSettings
  | .workers n => { s with workers := n }
  | .optLevel level => { s with optLevel := level }
  | .verify b => { s with verify := b }
  | .other _ _ => s

def Writes : EngineMember → List Char → Prop
  | .workers n, t => Spelled (toString n).toList t
  | .optLevel level, t => ∃ body, Quoted (some level.name.toList) body ∧ Spelled ('"' :: body) t
  | .verify b, t => Spelled (toString b).toList t
  | .other _ _, t => Json .value t

def workers? : EngineMember → Option UInt64
  | .workers n => some n
  | _ => none

def optLevel? : EngineMember → Option OptLevel
  | .optLevel level => some level
  | _ => none

def verify? : EngineMember → Option Bool
  | .verify b => some b
  | _ => none

end EngineMember

theorem find?_eq_none_of_unknown {fields : List (Field ρ)} {key : String}
    (h : key ∉ fields.map (·.name)) : fields.find? (·.name == key) = none := by
  simpa using h

namespace EngineSettings

def form : Form EngineSettings EngineMember where
  fields := fields
  key := EngineMember.key
  Writes := EngineMember.Writes
  set := EngineMember.set
  fine _ := true
  known := by
    intro m field hf v hv s rest hrest
    cases m with
    | workers n =>
      have hr : count (v ++ rest) = .ok (n, rest) := Reads.spelled (count_reads n) hv hrest
      cases hf
      simp [hr, EngineMember.set]
    | optLevel level =>
      obtain ⟨body, hb, hv⟩ := hv
      have hr : Scan.level (v ++ rest) = .ok (level, rest) :=
        Reads.spelled (level_reads hb) hv hrest
      cases hf
      simp [hr, EngineMember.set]
    | verify b =>
      have hr : truth (v ++ rest) = .ok (b, rest) := Reads.spelled (truth_reads b) hv hrest
      cases hf
      simp [hr, EngineMember.set]
    | other key unknown => cases (find?_eq_none_of_unknown unknown).symm.trans hf
  other := by
    intro m hf
    cases m with
    | other key unknown => exact ⟨id, fun _ => rfl⟩
    | _ => cases hf

def merge (default : EngineSettings) (ms : List EngineMember) : EngineSettings where
  workers := (ms.findSome? (·.workers?)).getD default.workers
  optLevel := (ms.findSome? (·.optLevel?)).getD default.optLevel
  verify := (ms.findSome? (·.verify?)).getD default.verify

theorem foldl_set {ms : List EngineMember} (h : form.Distinct ms) (default : EngineSettings) :
    ms.foldl form.set default = default.merge ms := by
  refine EngineSettings.ext ?_ ?_ ?_
  · exact form.project_foldl (·.workers) (·.workers?) "worker_threads"
      (fun _ m => by cases m <;> rfl) (fun m _ hm => by cases m <;> cases hm; exact ⟨rfl, rfl⟩) h _
  · exact form.project_foldl (·.optLevel) (·.optLevel?) "opt_level"
      (fun _ m => by cases m <;> rfl) (fun m _ hm => by cases m <;> cases hm; exact ⟨rfl, rfl⟩) h _
  · exact form.project_foldl (·.verify) (·.verify?) "verify"
      (fun _ m => by cases m <;> rfl) (fun m _ hm => by cases m <;> cases hm; exact ⟨rfl, rfl⟩) h _

end EngineSettings

/-- What a member of a session's settings says. -/
inductive SessionMember where
  | engine (ms : List EngineMember)
  | maxCallDepth (n : UInt64)
  | other (key : String) (unknown : key ∉ (SessionSettings.fields {}).map (·.name))

namespace SessionMember

def key : SessionMember → String
  | .engine _ => "engine"
  | .maxCallDepth _ => "max_call_depth"
  | .other key _ => key

def Writes : SessionMember → List Char → Prop
  | .engine ms, t => EngineSettings.form.Writing ms t
  | .maxCallDepth n, t => Spelled (toString n).toList t
  | .other _ _, t => Json .value t

def engine? : SessionMember → Option (List EngineMember)
  | .engine ms => some ms
  | _ => none

def maxCallDepth? : SessionMember → Option UInt64
  | .maxCallDepth n => some n
  | _ => none

end SessionMember

namespace SessionSettings

/-- Settings of an engine are over its own defaults, whatever the session's are. -/
def form (default : EngineSettings) : Form SessionSettings SessionMember where
  fields := fields default
  key := SessionMember.key
  Writes := SessionMember.Writes
  set s
    | .engine ms => { s with engine := ms.foldl EngineSettings.form.set default }
    | .maxCallDepth n => { s with maxCallDepth := n }
    | .other _ _ => s
  fine
    | .engine ms => EngineSettings.form.sound [] ms
    | _ => true
  known := by
    intro m field hf v hv s rest hrest
    cases m with
    | engine ms =>
      have hr := Form.Writing.reads hv default rest
      cases hf
      cases hs : EngineSettings.form.sound [] ms <;>
        simp_all [EngineSettings.form, Except.bind]
    | maxCallDepth n =>
      have hr : count (v ++ rest) = .ok (n, rest) := Reads.spelled (count_reads n) hv hrest
      cases hf
      simp [hr]
    | other key unknown =>
      have hn : (fields default).find? (·.name == key) = none :=
        find?_eq_none_of_unknown (by simpa [fields] using unknown)
      cases hn.symm.trans hf
  other := by
    intro m hf
    cases m with
    | other key unknown => exact ⟨id, fun _ => rfl⟩
    | _ => cases hf

/-- What the members say, over defaults. -/
def merge (default : SessionSettings) (ms : List SessionMember) : SessionSettings where
  engine := ((ms.findSome? (·.engine?)).map default.engine.merge).getD default.engine
  maxCallDepth := (ms.findSome? (·.maxCallDepth?)).getD default.maxCallDepth

/-- No known key stands twice, in the object or in an engine's. -/
def Distinct (default : EngineSettings) (ms : List SessionMember) : Prop :=
  (form default).Distinct ms ∧ ∀ es, .engine es ∈ ms → EngineSettings.form.Distinct es

variable {default : SessionSettings} {ms : List SessionMember} {t blanks : List Char}

theorem sound_iff_distinct :
    (form default.engine).sound [] ms = true ↔ Distinct default.engine ms := by
  rw [Form.sound_iff, Distinct]
  refine and_congr_right fun _ => ⟨fun h es hes => ?_, fun h m hm _ => ⟨List.not_mem_nil, ?_⟩⟩
  · exact ((Form.sound_iff _ _ _).mp (h _ hes rfl).2).1
  · cases m with
    | engine es => exact (Form.sound_iff _ _ _).mpr ⟨h es hm, fun _ _ _ => ⟨List.not_mem_nil, rfl⟩⟩
    | _ => rfl

theorem foldl_set (h : Distinct default.engine ms) :
    ms.foldl (form default.engine).set default = default.merge ms := by
  have hf : (ms.findSome? (·.engine?)).map (·.foldl EngineSettings.form.set default.engine) =
      (ms.findSome? (·.engine?)).map default.engine.merge := by
    cases hes : ms.findSome? (·.engine?) with
    | none => rfl
    | some es =>
      obtain ⟨m, hm, hs⟩ := List.exists_of_findSome?_eq_some hes
      cases m <;> cases hs
      exact congrArg some (EngineSettings.foldl_set (h.2 es hm) default.engine)
  refine SessionSettings.ext ?_ ?_
  · rw [merge, ← hf, List.map_findSome?]
    exact (form _).project_foldl (·.engine) _ "engine" (fun _ m => by cases m <;> rfl)
      (fun m _ hm => by cases m <;> cases hm; exact ⟨rfl, rfl⟩) h.1 default
  · exact (form _).project_foldl (·.maxCallDepth) (·.maxCallDepth?) "max_call_depth"
      (fun _ m => by cases m <;> rfl) (fun m _ hm => by cases m <;> cases hm; exact ⟨rfl, rfl⟩)
      h.1 default

theorem read_eq (hms : (form default.engine).Writing ms t) (hblanks : Blanks blanks) :
    read default (String.ofList (t ++ blanks)) =
      if (form default.engine).sound [] ms then .ok (ms.foldl (form default.engine).set default)
      else .error .meaningless := by
  have hr : record (fields default.engine) default (t ++ blanks) = _ := hms.reads default blanks
  have hend : token? blanks = .ok (none, []) := by
    simp [token?, List.dropWhile_eq_nil_iff.mpr hblanks]
  simp only [read, StateT.run, String.toList_ofList, bind_apply, hr]
  cases (form default.engine).sound [] ms <;> simp [hend, Except.bind, Except.map]

end SessionSettings

/-! ### Written settings -/

def Scan.isPlain (c : Char) : Bool := c != '"' && c != '\\' && 0x20 ≤ c.toNat

theorem Scan.Quoted.of_plain {cs : List Char} (h : cs.all isPlain = true) :
    Quoted (some cs) (cs ++ ['"']) := by
  induction cs with
  | nil => exact .close
  | cons c cs ih =>
    simp only [List.all_cons, isPlain, Bool.and_eq_true, bne_iff_ne, decide_eq_true_eq] at h
    exact .plain h.1.1.1 h.1.1.2 h.1.2 (ih h.2)

theorem Form.Members.compact_close (F : Form ρ M) : F.Members false [] ['\x7d'] :=
  .close false (show Blanks [] from nofun)

theorem Form.Members.compact {F : Form ρ M} {ms : List M} {v t : List Char}
    (ht : F.Members false ms t) (first : Bool) (m : M) (hv : F.Writes m v) (name : String)
    (hkey : F.key m = name) (hn : name.toList.all isPlain = true) :
    F.Members first (m :: ms)
      ((if first then [] else [',']) ++ ('"' :: (name.toList ++ ['"', ':']) ++ (v ++ t))) := by
  refine .member ?_ ⟨[], name.toList ++ ['"'], [], nofun, ?_, nofun, by simp⟩ hv ht
  · cases first with
    | true => rfl
    | false => exact ⟨[], nofun, rfl⟩
  · rw [hkey]
    exact .of_plain hn

theorem OptLevel.quoted_name (l : OptLevel) :
    Quoted (some l.name.toList) (l.name.toList ++ ['"']) :=
  .of_plain (by cases l <;> decide)

def EngineSettings.members (s : EngineSettings) : List EngineMember :=
  [.workers s.workers, .optLevel s.optLevel, .verify s.verify]

theorem EngineSettings.render_writing (s : EngineSettings) :
    form.Writing s.members s.render.toList := by
  have hverify := (Form.Members.compact_close form).compact false (.verify s.verify)
    ⟨[], nofun, rfl⟩ "verify" rfl (by decide)
  have hlevels := hverify.compact false (.optLevel s.optLevel)
    ⟨_, s.optLevel.quoted_name, [], nofun, rfl⟩ "opt_level" rfl (by decide)
  have hworkers := hlevels.compact true (.workers s.workers) ⟨[], nofun, rfl⟩
    "worker_threads" rfl (by decide)
  refine ⟨[], _, nofun, hworkers, ?_⟩
  unfold render
  simp

def SessionSettings.members (s : SessionSettings) : List SessionMember :=
  [.engine s.engine.members, .maxCallDepth s.maxCallDepth]

theorem SessionSettings.render_writing (s : SessionSettings) (default : EngineSettings) :
    (form default).Writing s.members s.render.toList := by
  have hd := (Form.Members.compact_close (form default)).compact false
    (.maxCallDepth s.maxCallDepth) ⟨[], nofun, rfl⟩ "max_call_depth" rfl (by decide)
  have hengine := hd.compact true (.engine s.engine.members) s.engine.render_writing
    "engine" rfl (by decide)
  refine ⟨[], _, nofun, hengine, ?_⟩
  unfold render
  simp

theorem SessionSettings.read_render (default s : SessionSettings) :
    read default s.render = .ok s := by
  have hr := read_eq (s.render_writing default.engine) (show Blanks [] from nofun)
  have hdistinct : Distinct default.engine s.members := by
    refine ⟨show ["engine", "max_call_depth"].Nodup by decide, fun es hes => ?_⟩
    obtain rfl : es = s.engine.members := by simpa [members] using hes
    exact (show ["worker_threads", "opt_level", "verify"].Nodup by decide)
  have hm : default.merge s.members = s := rfl
  simpa [sound_iff_distinct.mpr hdistinct, foldl_set hdistinct, hm] using hr

/-- Settings are read back from the document that says them. Of a document with any known members,
in any order and among any others, the settings are what its members say, over the defaults; it has
no meaning if a known key stands twice. -/
theorem SessionSettings.documents_read (default : SessionSettings) :
    (∀ s : SessionSettings, read default s.render = .ok s) ∧
    ∀ {ms : List SessionMember} {t blanks : List Char}, (form default.engine).Writing ms t →
      Blanks blanks →
        (Distinct default.engine ms →
          read default (String.ofList (t ++ blanks)) = .ok (default.merge ms)) ∧
        (¬ Distinct default.engine ms →
          read default (String.ofList (t ++ blanks)) = .error .meaningless) := by
  refine ⟨read_render default, fun hms hblanks => ?_⟩
  rw [read_eq hms hblanks]
  refine ⟨fun h => ?_, fun h => if_neg (mt sound_iff_distinct.mp h)⟩
  rw [if_pos (sound_iff_distinct.mpr h), foldl_set h]

/-- An engine's flag is read after a list nobody knows, and not if it stands twice. -/
theorem SessionSettings.documents_read_noted :
    read {} "\x7b\"note\":[null],\"engine\":\x7b\"verify\":false\x7d\x7d " =
      .ok { engine := { verify := false } } ∧
    read {} "\x7b\"note\":[null],\"engine\":\x7b\"verify\":true,\"verify\":false\x7d\x7d " =
      .error .meaningless := by
  have hn : Json .value "[null]".toList := .filled (b := .list) rfl .null (.close .list)
  have hdocument {es : List EngineMember} {u : List Char}
      (hes : EngineSettings.form.Writing es u) :=
    ((Form.Members.compact_close (form {})).compact false (.engine es) hes "engine" rfl
      (by decide)).compact true (.other "note" (by decide)) hn "note" rfl (by decide)
  have hc := Form.Members.compact_close EngineSettings.form
  have ho := hc.compact true (.verify false) ⟨[], nofun, rfl⟩ "verify" rfl (by decide)
  have ht := (hc.compact false (.verify false) ⟨[], nofun, rfl⟩ "verify" rfl
    (by decide)).compact true (.verify true) ⟨[], nofun, rfl⟩ "verify" rfl (by decide)
  have hb : Blanks [' '] := by simp [Blanks, isBlank]
  have hr := (documents_read {}).2 ⟨[], _, nofun, hdocument ⟨[], _, nofun, ho, rfl⟩, rfl⟩ hb
  have hf := (documents_read {}).2 ⟨[], _, nofun, hdocument ⟨[], _, nofun, ht, rfl⟩, rfl⟩ hb
  refine ⟨hr.1 ⟨show ["engine"].Nodup by decide, fun es hes => ?_⟩, hf.2 fun h => ?_⟩
  · obtain rfl : es = [.verify false] := by simpa using hes
    exact (show ["verify"].Nodup by decide)
  · have htwo : ["verify", "verify"].Nodup := h.2 [.verify true, .verify false] (by simp)
    revert htwo
    decide

end ScriptMachine
