/-
ScriptMachine.Proofs.Interning — names are numbered by their first use, for good.
-/
import Mathlib.Algebra.Ring.Nat
import ScriptMachine.Proofs.Mentions

namespace ScriptMachine.Names

/-- Interns names one after another, and collects their numbers. -/
def issueAll (names : Names) : List String → List UInt32 × Names
  | [] => ([], names)
  | name :: rest =>
    let (number, names) := names.issue name
    let (numbers, names) := names.issueAll rest
    (number :: numbers, names)

variable {names names' : Names} {name : String} {used : List String}

theorem issueAll_cons (names : Names) (name : String) (rest : List String) :
    names.issueAll (name :: rest) =
      (.ofNat (names.intern name).1 :: ((names.intern name).2.issueAll rest).1,
        ((names.intern name).2.issueAll rest).2) := rfl

theorem grows_issueAll (names : Names) (calls : List String) :
    names.Grows (names.issueAll calls).2 := by
  induction calls generalizing names with
  | nil => exact .refl names
  | cons name rest ih => exact (names.grows_intern name).trans (ih _)

theorem mem_texts_iff : name ∈ names.texts.toList ↔ ∃ symbol, names.find? name = some symbol := by
  simp [find?, names.inverse, List.mem_iff_getElem?]

/-! ## The list of names -/

theorem texts_intern (h : names.texts.toList = used.eraseDups) (name : String) :
    (names.intern name).2.texts.toList = (used ++ [name]).eraseDups := by
  have hmem : name ∈ used ↔ ∃ symbol, names.find? name = some symbol := by
    rw [← mem_texts_iff, h, List.mem_eraseDups]
  cases hf : names.find? name with
  | some symbol =>
    rw [intern_of_some hf, eraseDups_concat_of_mem (hmem.mpr ⟨symbol, hf⟩)]
    exact h
  | none =>
    have hnew : name ∉ used := by simp [hmem, hf]
    rw [intern_of_none hf, eraseDups_concat_of_not_mem hnew, ← h]
    exact Array.toList_push

theorem texts_issueAll (h : names.texts.toList = used.eraseDups) (calls : List String) :
    (names.issueAll calls).2.texts.toList = (used ++ calls).eraseDups := by
  induction calls generalizing names used with
  | nil => rw [List.append_nil]; exact h
  | cons name rest ih =>
    rw [List.append_cons]
    exact ih (texts_intern h name)

theorem find?_eq_idxOf (hmem : name ∈ names.texts.toList) :
    names.find? name = some (names.texts.toList.idxOf name) := by
  rw [find?, names.inverse, ← Array.getElem?_toList]
  exact List.getElem?_idxOf hmem

theorem numbers_issueAll (names : Names) (calls : List String) :
    (names.issueAll calls).1 = calls.map fun name =>
      .ofNat ((names.issueAll calls).2.texts.toList.idxOf name) := by
  induction calls generalizing names with
  | nil => rfl
  | cons name rest ih =>
    rw [issueAll_cons, List.map_cons, ih]
    -- the name keeps the place it was given
    have hf := (grows_issueAll _ rest).find (names.find?_intern name)
    rw [find?_eq_idxOf (mem_texts_iff.mpr ⟨_, hf⟩)] at hf
    rw [Option.some.inj hf]

/-! ## Numbers -/

theorem issued?_eq_some {number : UInt32} (hs : names.size < 2 ^ 32) :
    names.issued? name = some number ↔ names.spelled? number = some name := by
  rw [issued?, spelled?, spelling?, ← names.inverse, ← find?, Option.map_eq_some_iff]
  constructor
  · rintro ⟨symbol, hf, rfl⟩
    have hlt : symbol < names.size := (Array.getElem?_eq_some_iff.mp ((names.inverse _ _).mp hf)).1
    rwa [UInt32.toNat_ofNat', Nat.mod_eq_of_lt (Nat.lt_trans hlt hs)]
  · intro hf
    exact ⟨_, hf, UInt32.ofNat_toNat⟩

theorem issue_of_issued? {number : UInt32} (h : names.issued? name = some number) :
    names.issue name = (number, names) := by
  obtain ⟨symbol, hf, rfl⟩ := Option.map_eq_some_iff.mp h
  rw [issue, intern_of_some hf]

theorem Grows.issued? (h : names.Grows names') {number : UInt32}
    (hnum : names.issued? name = some number) : names'.issued? name = some number := by
  obtain ⟨symbol, hf, rfl⟩ := Option.map_eq_some_iff.mp hnum
  rw [Names.issued?, h.find hf, Option.map_some]

/-- What a host can tell about the names it has interned. -/
structure Numbered (calls : List String) (numbers : List UInt32) (names : Names) : Prop where
  numbers_eq : numbers.map (·.toNat) = calls.map (calls.eraseDups.idxOf ·)
  size_eq : names.size = calls.eraseDups.length
  spelled : ∀ number, names.spelled? number = calls.eraseDups[number.toNat]?
  unused : ∀ number : UInt32, names.size ≤ number.toNat → names.spelled? number = none
  inverse : ∀ name number, names.issued? name = some number ↔ names.spelled? number = some name
  known : ∀ name ∈ calls, ∃ number, names.issued? name = some number ∧
    names.issue name = (number, names)
  issued_kept : ∀ later name number, names.issued? name = some number →
    (names.issueAll later).2.issued? name = some number
  spelled_kept : ∀ later name number, names.spelled? number = some name →
    (names.issueAll later).2.spelled? number = some name

/-- **Names are numbered by their first use, for good.** -/
theorem interning_numbers_names (calls : List String) (h : calls.eraseDups.length < 2 ^ 32) :
    Numbered calls (({} : Names).issueAll calls).1 (({} : Names).issueAll calls).2 := by
  have ht : (({} : Names).issueAll calls).2.texts.toList = calls.eraseDups :=
    texts_issueAll (show ({} : Names).texts.toList = List.eraseDups [] from rfl) calls
  have hn := numbers_issueAll {} calls
  generalize ({} : Names).issueAll calls = outcome at ht hn
  obtain ⟨numbers, names⟩ := outcome
  have hs : names.size = calls.eraseDups.length := by
    rw [← ht]
    exact Array.length_toList.symm
  have hspe : ∀ number, names.spelled? number = calls.eraseDups[number.toNat]? :=
    fun number => by
    rw [← ht, Array.getElem?_toList]
    rfl
  refine {
    numbers_eq := ?numbers
    size_eq := hs
    spelled := hspe
    unused := fun number hle => ?unused
    inverse := fun _ _ => issued?_eq_some (hs ▸ h)
    known := fun name hmem => ?known
    issued_kept := fun later _ _ => (names.grows_issueAll later).issued?
    spelled_kept := fun later _ _ => (names.grows_issueAll later).spelling }
  case numbers =>
    rw [hn, ht, List.map_map]
    refine List.map_congr_left fun name hmem => ?_
    have hlt := List.idxOf_lt_length_of_mem (List.mem_eraseDups.mpr hmem)
    exact UInt32.toNat_ofNat_of_lt' (Nat.lt_trans hlt h)
  case unused =>
    rw [hspe, List.getElem?_eq_none (hs ▸ hle)]
  case known =>
    have hlis : name ∈ names.texts.toList := by rw [ht, List.mem_eraseDups]; exact hmem
    obtain ⟨symbol, hf⟩ := mem_texts_iff.mp hlis
    have hiss : names.issued? name = some (.ofNat symbol) := by rw [issued?, hf, Option.map_some]
    exact ⟨_, hiss, issue_of_issued? hiss⟩

theorem interning_numbers_again :
    (({} : Names).issueAll ["init", "clock", "init", "x"]).1 = [0, 1, 0, 2] ∧
      Numbered ["init", "clock", "init", "x"]
        (({} : Names).issueAll ["init", "clock", "init", "x"]).1
        (({} : Names).issueAll ["init", "clock", "init", "x"]).2 :=
  ⟨by decide, interning_numbers_names _ (by decide)⟩

end ScriptMachine.Names
