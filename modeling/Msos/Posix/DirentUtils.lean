import Msos.Library.Search
import Msos.Library.Words

namespace Msos.Posix.DirentUtils

open Msos.Library.Search Msos.Library.Words

-- The part that is returned, and the view that is left in the argument
def getNextPart (path : List Char) : List Char × List Char :=
  match findFirstNotOf '/' path with
  | none => ([], [])
  | some dirnameStart =>
      let path := path.drop dirnameStart
      match path.findIdx? (· = '/') with
      | some nextSlash => (path.take nextSlash, path.drop nextSlash)
      | none => (path, [])

-- The body is that of get_next_part, word for word.
def getLastPart (path : List Char) : List Char × List Char :=
  match findFirstNotOf '/' path with
  | none => ([], [])
  | some dirnameStart =>
      let path := path.drop dirnameStart
      match path.findIdx? (· = '/') with
      | some nextSlash => (path.take nextSlash, path.drop nextSlash)
      | none => (path, [])

-- The view after a number of calls, and what the call after them returns.
def view (path : List Char) : Nat → List Char
  | 0 => path
  | count + 1 => (getNextPart (view path count)).2

def part (path : List Char) (count : Nat) : List Char := (getNextPart (view path count)).1

-- Calls until one returns the empty part; none when the fuel does not do.
def walk : Nat → List Char → Option (List (List Char))
  | 0, _ => none
  | fuel + 1, path =>
      let (part, rest) := getNextPart path
      if part = [] then some [] else (walk fuel rest).map (part :: ·)

section Call

variable {path : List Char}

theorem getNextPart_of_all (h : ∀ c ∈ path, c = '/') : getNextPart path = ([], []) := by
  have hnone : findFirstNotOf '/' path = none := by
    rw [findFirstNotOf, List.findIdx?_eq_none_iff]
    exact fun c hc => by simpa using h c hc
  rw [getNextPart, hnone]

-- The call cuts the first component off, and the slash behind it stays.
theorem getNextPart_run (count : Nat) {run rest : List Char} (hne : run ≠ []) (hrun : '/' ∉ run)
    (hrest : rest = [] ∨ ∃ tail, rest = '/' :: tail) :
    getNextPart (List.replicate count '/' ++ (run ++ rest)) = (run, rest) := by
  have hfirst : findFirstNotOf '/' (List.replicate count '/' ++ (run ++ rest)) = some count := by
    obtain ⟨head, tail, rfl⟩ := List.exists_cons_of_ne_nil hne
    exact findFirstNotOf_replicate (ne_of_notMem hrun List.mem_cons_self) count _
  have hdrop : (List.replicate count '/' ++ (run ++ rest)).drop count = run ++ rest :=
    List.drop_left' (List.length_replicate ..)
  simp only [getNextPart, hfirst, hdrop]
  rcases hrest with rfl | ⟨tail, rfl⟩
  · rw [List.append_nil, findIdx?_of_notMem hrun]
  · simp only [findIdx?_append hrun, List.take_left, List.drop_left]

theorem words_component (count : Nat) {run rest : List Char} (hne : run ≠ []) (hrun : '/' ∉ run)
    (hrest : rest = [] ∨ ∃ tail, rest = '/' :: tail) :
    words '/' (List.replicate count '/' ++ (run ++ rest)) = run :: words '/' rest := by
  rw [words_replicate_append]
  rcases hrest with rfl | ⟨tail, rfl⟩
  · rw [List.append_nil, words_of_notMem hrun hne, words_nil]
  · rw [words_run hrun hne, words_delimiter]

-- Either nothing but slashes is left, or the path goes on with a component.
theorem getNextPart_cases (path : List Char) :
    (words '/' path = [] ∧ getNextPart path = ([], [])) ∨
    ∃ count run rest, path = List.replicate count '/' ++ (run ++ rest) ∧ run ≠ [] ∧ '/' ∉ run ∧
      (rest = [] ∨ ∃ tail, rest = '/' :: tail) ∧
      words '/' path = run :: words '/' rest ∧ getNextPart path = (run, rest) := by
  by_cases h : ∃ c ∈ path, c ≠ '/'
  · obtain ⟨count, run, rest, rfl, hne, hrun, hrest⟩ := exists_first h
    exact Or.inr ⟨count, run, rest, rfl, hne, hrun, hrest, words_component count hne hrun hrest,
      getNextPart_run count hne hrun hrest⟩
  · have hall : ∀ c ∈ path, c = '/' := fun c hc => by_contra fun hne => h ⟨c, hc, hne⟩
    refine Or.inl ⟨?_, getNextPart_of_all hall⟩
    have hslashes := @words_replicate_append _ _ '/' path.length []
    rwa [List.append_nil, words_nil, ← List.eq_replicate_iff.mpr ⟨rfl, hall⟩] at hslashes

theorem fst_getNextPart (path : List Char) :
    (getNextPart path).1 = (words '/' path).head?.getD [] := by
  obtain ⟨hwords, hnext⟩ | ⟨_, run, rest, -, -, -, -, hwords, hnext⟩ := getNextPart_cases path
  · rw [hnext, hwords]
    rfl
  · rw [hnext, hwords]
    rfl

theorem words_snd_getNextPart (path : List Char) :
    words '/' (getNextPart path).2 = (words '/' path).tail := by
  obtain ⟨hwords, hnext⟩ | ⟨_, run, rest, -, -, -, -, hwords, hnext⟩ := getNextPart_cases path
  · rw [hnext, hwords, words_nil]
    rfl
  · rw [hnext, hwords]
    rfl

theorem getLastPart_eq : getLastPart = getNextPart := rfl

end Call

section Walk

variable {path : List Char}

theorem words_view (path : List Char) (count : Nat) :
    words '/' (view path count) = (words '/' path).drop count := by
  induction count with
  | zero => rfl
  | succ count ih => rw [view, words_snd_getNextPart, ih, List.tail_drop]

theorem part_eq (path : List Char) (count : Nat) :
    part path count = (words '/' path)[count]?.getD [] := by
  rw [part, fst_getNextPart, words_view, List.head?_drop]

theorem ne_nil_of_mem_words {component : List Char} (h : component ∈ words '/' path) :
    component ≠ [] := by
  simpa using (List.mem_filter.mp h).2

theorem part_eq_nil_iff (path : List Char) (count : Nat) :
    part path count = [] ↔ (words '/' path).length ≤ count := by
  rw [part_eq, ← List.getElem?_eq_none_iff]
  cases hget : (words '/' path)[count]? with
  | none => simp
  | some component => simpa using ne_nil_of_mem_words (List.mem_of_getElem? hget)

-- The loop ends on every path: each call takes a component away.
theorem walk_eq (fuel : Nat) (h : (words '/' path).length < fuel) :
    walk fuel path = some (words '/' path) := by
  induction fuel generalizing path with
  | zero => omega
  | succ fuel ih =>
      obtain ⟨hwords, hnext⟩ | ⟨_, run, rest, -, hne, -, -, hwords, hnext⟩ := getNextPart_cases path
      · simp only [walk, hnext, hwords, if_true]
      · have hrest : (words '/' rest).length < fuel := by
          rw [hwords, List.length_cons] at h
          omega
        simp only [walk, hnext, hne, if_false, ih hrest, hwords, Option.map_some]

theorem view_next (path : List Char) (count : Nat) :
    view path (count + 1) = view (getNextPart path).2 count := by
  induction count with
  | zero => rfl
  | succ count ih => rw [view, ih, view]

-- The components that the calls have returned are in front of the view.
theorem exists_front (path : List Char) (count : Nat) (h : count ≤ (words '/' path).length) :
    ∃ front, path = front ++ view path count ∧
      words '/' front = (words '/' path).take count := by
  induction count generalizing path with
  | zero => exact ⟨[], rfl, words_nil⟩
  | succ count ih =>
      obtain ⟨hwords, -⟩ | ⟨slashes, run, rest, hpath, hne, hrun, hrest, hwords, hnext⟩ :=
        getNextPart_cases path
      · rw [hwords, List.length_nil] at h
        omega
      · have hcount : count ≤ (words '/' rest).length := by
          rw [hwords, List.length_cons] at h
          omega
        obtain ⟨front, hfront, htake⟩ := ih rest hcount
        have hshape : front = [] ∨ ∃ tail, front = '/' :: tail := by
          cases front with
          | nil => exact Or.inl rfl
          | cons head front =>
              obtain rfl | ⟨tail, rfl⟩ := hrest
              · cases hfront
              · exact Or.inr ⟨front, by rw [(List.cons.inj hfront).1]⟩
        refine ⟨List.replicate slashes '/' ++ (run ++ front), ?_, ?_⟩
        · rw [view_next, hnext, List.append_assoc, List.append_assoc, ← hfront]
          exact hpath
        · rw [words_component slashes hne hrun hshape, htake, hwords, List.take_succ_cons]

-- Calling until the empty part comes back returns the components in their order,
-- and each call leaves what is right behind the component that it returned.
structure WalksComponents (path : List Char) : Prop where
  loop : ∀ fuel, (words '/' path).length < fuel → walk fuel path = some (words '/' path)
  returned : ∀ count, part path count = (words '/' path)[count]?.getD []
  behind : ∀ count component, (words '/' path)[count]? = some component →
    ∃ front, path = front ++ (component ++ view path (count + 1)) ∧
      words '/' front = (words '/' path).take count
  finished : ∀ count, (words '/' path).length ≤ count →
    part path count = [] ∧ view path (count + 1) = []

theorem view_of_component {count : Nat} {component : List Char}
    (h : (words '/' path)[count]? = some component) :
    ∃ slashes, view path count =
      List.replicate slashes '/' ++ (component ++ view path (count + 1)) := by
  rw [← List.head?_drop, ← words_view] at h
  obtain ⟨hwords, -⟩ | ⟨slashes, run, rest, hview, -, -, -, hwords, hnext⟩ :=
    getNextPart_cases (view path count)
  · rw [hwords] at h
    cases h
  · rw [hwords] at h
    obtain rfl := Option.some.inj h
    exact ⟨slashes, by rw [view, hnext]; exact hview⟩

theorem walksComponents (path : List Char) : WalksComponents path := by
  refine ⟨fun fuel => walk_eq fuel, part_eq path, ?_, ?_⟩
  · intro count component hcomponent
    have hcount := (List.getElem?_eq_some_iff.mp hcomponent).1
    obtain ⟨front, hpath, hfront⟩ := exists_front path count (Nat.le_of_lt hcount)
    obtain ⟨slashes, hview⟩ := view_of_component hcomponent
    refine ⟨front ++ List.replicate slashes '/', ?_, ?_⟩
    · rw [List.append_assoc, ← hview]
      exact hpath
    · rw [words_append_replicate, hfront]
  · intro count hcount
    refine ⟨(part_eq_nil_iff path count).mpr hcount, ?_⟩
    have hwords : words '/' (view path count) = [] := by
      rw [words_view, List.drop_eq_nil_of_le hcount]
    obtain ⟨-, hnext⟩ | ⟨_, run, _, -, -, -, -, hsome, -⟩ := getNextPart_cases (view path count)
    · rw [view, hnext]
    · rw [hwords] at hsome
      cases hsome

end Walk

section LastPart

-- The part is the last of those that the loop over get_next_part returns.
def ReturnsLastPart (path : List Char) : Prop :=
  ∃ fuel components, walk fuel path = some components ∧
    (getLastPart path).1 = components.getLast?.getD []

theorem walk_functional {path : List Char} {fuel : Nat} {components : List (List Char)}
    (h : walk fuel path = some components) : components = words '/' path := by
  induction fuel generalizing path components with
  | zero => cases h
  | succ fuel ih =>
      obtain ⟨hwords, hnext⟩ | ⟨_, run, rest, -, hne, -, -, hwords, hnext⟩ := getNextPart_cases path
      · simp only [walk, hnext, if_true, Option.some.injEq] at h
        rw [hwords, h]
      · simp only [walk, hnext, hne, if_false, Option.map_eq_some_iff] at h
        obtain ⟨others, hothers, rfl⟩ := h
        rw [hwords, ih hothers]

-- Two options without the empty part are told apart by what stands for them.
theorem getD_inj {first second : Option (List Char)} (hf : ∀ part ∈ first, part ≠ [])
    (hs : ∀ part ∈ second, part ≠ []) : first.getD [] = second.getD [] ↔ first = second := by
  cases first with
  | none =>
      cases second with
      | none => simp
      | some part => simpa [eq_comm] using hs part rfl
  | some part =>
      cases second with
      | none => simpa using hf part rfl
      | some other => simp

theorem returnsLastPart_iff (path : List Char) :
    ReturnsLastPart path ↔ (words '/' path).head? = (words '/' path).getLast? := by
  have hpart : (getLastPart path).1 = (words '/' path).head?.getD [] := by
    rw [getLastPart_eq]
    exact fst_getNextPart path
  rw [← getD_inj (fun part h => ne_nil_of_mem_words (List.mem_of_mem_head? h))
    (fun part h => ne_nil_of_mem_words (List.mem_of_mem_getLast? h)), ← hpart]
  constructor
  · rintro ⟨fuel, components, hwalk, hlast⟩
    rw [hlast, walk_functional hwalk]
  · intro h
    exact ⟨_, _, walk_eq _ (Nat.lt_succ_self _), h⟩

theorem test_file_not_returnsLastPart : ¬ReturnsLastPart "/test/file".toList := by
  rintro ⟨fuel, components, hwalk, hlast⟩
  rw [walk_functional hwalk] at hlast
  exact absurd hlast (by decide)

end LastPart

end Msos.Posix.DirentUtils
