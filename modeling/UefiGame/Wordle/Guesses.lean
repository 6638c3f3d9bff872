import Mathlib.Data.List.GetD
import UefiGame.Library.Run
import UefiGame.Wordle.Secret

/-! # The guesses of the Wordle application

`UefiMain` lets guess six times. A guess is five keys, each of them echoed; the
reply marks the letters that stand in their place and those that stand anywhere
else in the word, every letter by itself. A guess with five letters in place
boots the entry with number three and ends the game.
-/

namespace UefiGame

/-- A character literal in a wide string. -/
def wide (c : Char) : CHAR16 := BitVec.ofNat 16 c.toNat

/-- `OutputString`: a string is shown up to its terminator. -/
def outputString (screen string : List CHAR16) : List CHAR16 := screen ++ string.takeWhile (· ≠ 0)

/-- The locals of the loop that reads a guess. -/
structure Typing where
  inputWord : List CHAR16
  strokes : ℕ
  screen : List CHAR16

/-- One pass of that loop; the `n`-th key of the game is `keys n`. -/
def typeStep (keys : ℕ → CHAR16) (t : Typing) (inputIdx : ℕ) : Typing where
  inputWord := t.inputWord.set inputIdx (keys t.strokes)
  strokes := t.strokes + 1
  screen := outputString t.screen ((t.inputWord.set inputIdx (keys t.strokes)).drop inputIdx)

/-- The locals `reply` and `pluses`. -/
structure Reply where
  reply : List CHAR16
  pluses : ℕ

/-- One pass of the loop that compares. The inner loop stores the same character in whichever pass
it ends. -/
def compareStep (word inputWord : List CHAR16) (r : Reply) (idx : ℕ) : Reply :=
  if inputWord.getD idx 0 = word.getD idx 0 then
    { reply := r.reply.set idx (wide '+'), pluses := r.pluses + 1 }
  else if (List.range 5).any fun idx_2 => inputWord.getD idx 0 = word.getD idx_2 0 then
    { r with reply := r.reply.set idx (wide '?') }
  else r

def compareWords (word inputWord : List CHAR16) : Reply :=
  (List.range 5).foldl (compareStep word inputWord)
    ⟨[wide '_', wide '_', wide '_', wide '_', wide '_', 0], 0⟩

/-- The game between two moves: the keys read, the screen, the boot options booted, and whether the
loop was left by its `break`. -/
structure WordleState where
  strokes : ℕ
  screen : List CHAR16
  booted : List ℕ
  ended : Bool

/-- One pass of the loop over the moves. -/
def moveStep (word : List CHAR16) (keys : ℕ → CHAR16) (s : WordleState) (_move : ℕ) : WordleState :=
  let t := (List.range 5).foldl (typeStep keys) ⟨List.replicate 6 0, s.strokes, s.screen⟩
  let r := compareWords word t.inputWord
  let screen :=
    outputString (outputString (outputString t.screen [wide '\n', 0]) r.reply) [wide '\n', 0]
  { strokes := t.strokes
    screen := screen
    booted := if r.pluses = 5 then s.booted ++ [3] else s.booted
    ended := r.pluses = 5 }

/-- The loop over the moves and the message after it. -/
def playWordle (word : List CHAR16) (keys : ℕ → CHAR16) : WordleState :=
  let s := Run.run (moveStep word keys) WordleState.ended ⟨0, [], [], false⟩ (List.range 6)
  { s with screen := s.screen ++ "Game ended".toList.map wide }

/-- The five keys from a position on. -/
def guessAt (keys : ℕ → CHAR16) (start : ℕ) : List CHAR16 :=
  (List.range 5).map fun i => keys (start + i)

/-- What the reply says of a letter at the place of another one. -/
def mark (letters : List CHAR16) (a b : CHAR16) : CHAR16 :=
  if a = b then wide '+' else if a ∈ letters then wide '?' else wide '_'

def marks (letters guess : List CHAR16) : List CHAR16 := List.zipWith (mark letters) guess letters

/-- What a move leaves on the screen. -/
def shownMove (letters guess : List CHAR16) : List CHAR16 :=
  guess.filter (· ≠ 0) ++ [wide '\n'] ++ marks letters guess ++ [wide '\n']

section Move

variable {letters guess : List CHAR16} {keys : ℕ → CHAR16}

@[simp] theorem length_guessAt (start : ℕ) : (guessAt keys start).length = 5 := by simp [guessAt]

theorem foldl_typeStep (start : ℕ) (screen : List CHAR16) {k : ℕ} (hk : k ≤ 5) :
    (List.range k).foldl (typeStep keys) ⟨List.replicate 6 0, start, screen⟩ =
      ⟨((List.range k).map fun i => keys (start + i)) ++ List.replicate (6 - k) 0, start + k,
        screen ++ ((List.range k).map fun i => keys (start + i)).filter (· ≠ 0)⟩ := by
  induction k with
  | zero => simp
  | succ k ih =>
    have hset : (((List.range k).map fun i => keys (start + i)) ++
        List.replicate (6 - k) 0).set k (keys (start + k)) =
        ((List.range (k + 1)).map fun i => keys (start + i)) ++ List.replicate (6 - (k + 1)) 0 := by
      rw [List.set_append_right _ _ (by simp), List.length_map, List.length_range, Nat.sub_self,
        show 6 - k = 6 - (k + 1) + 1 by omega, List.replicate_succ, List.set_cons_zero,
        List.range_succ, List.map_append, List.append_assoc]
      rfl
    have hdrop : ((((List.range (k + 1)).map fun i => keys (start + i)) ++
        List.replicate (6 - (k + 1)) 0).drop k).takeWhile (· ≠ 0) =
          [keys (start + k)].filter (· ≠ 0) := by
      rw [List.range_succ, List.map_append, List.append_assoc,
        List.drop_append_of_le_length (by simp),
        List.drop_of_length_le (by simp), List.nil_append]
      obtain ⟨j, hj⟩ : ∃ j, 6 - (k + 1) = j + 1 := ⟨5 - (k + 1), by omega⟩
      by_cases hzero : keys (start + k) = 0 <;>
        simp [hzero, hj, List.replicate_succ, List.takeWhile_cons, List.filter_cons]
    rw [List.range_succ, List.foldl_append, ih (by omega), List.foldl_cons, List.foldl_nil,
      typeStep]
    dsimp only
    rw [hset, outputString, hdrop, List.append_assoc, ← List.filter_append, Nat.add_assoc,
      ← List.range_succ, List.range_succ, List.map_append]
    rfl

theorem foldl_typeStep_five (start : ℕ) (screen : List CHAR16) :
    (List.range 5).foldl (typeStep keys) ⟨List.replicate 6 0, start, screen⟩ =
      ⟨guessAt keys start ++ [0], start + 5, screen ++ (guessAt keys start).filter (· ≠ 0)⟩ :=
  foldl_typeStep start screen le_rfl

theorem any_range_iff (hletters : letters.length = 5) (a : CHAR16) :
    ((List.range 5).any fun i => a = (letters ++ [0]).getD i 0) = true ↔ a ∈ letters := by
  rw [List.any_eq_true]
  constructor
  · rintro ⟨i, hi, heq⟩
    rw [List.mem_range] at hi
    rw [decide_eq_true_eq, List.getD_append _ _ _ _ (by omega), List.getD_eq_getElem _ _ (by omega)]
      at heq
    exact heq ▸ List.getElem_mem _
  · intro ha
    obtain ⟨i, hi, rfl⟩ := List.mem_iff_getElem.mp ha
    refine ⟨i, List.mem_range.mpr (by omega), ?_⟩
    rw [decide_eq_true_eq, List.getD_append _ _ _ _ hi, List.getD_eq_getElem _ _ hi]

theorem foldl_compareStep (hletters : letters.length = 5) (hguess : guess.length = 5) {k : ℕ}
    (hk : k ≤ 5) :
    (List.range k).foldl (compareStep (letters ++ [0]) (guess ++ [0]))
        ⟨List.replicate 5 (wide '_') ++ [0], 0⟩ =
      ⟨(marks letters guess).take k ++ List.replicate (5 - k) (wide '_') ++ [0],
        ((guess.zip letters).take k).countP fun x => x.1 = x.2⟩ := by
  induction k with
  | zero => simp
  | succ k ih =>
    have hlen : (marks letters guess).length = 5 := by simp [marks, hletters, hguess]
    have ha : (guess ++ [0]).getD k 0 = guess[k] := by
      rw [List.getD_append _ _ _ _ (by omega), List.getD_eq_getElem _ _ (by omega)]
    have hb : (letters ++ [0]).getD k 0 = letters[k] := by
      rw [List.getD_append _ _ _ _ (by omega), List.getD_eq_getElem _ _ (by omega)]
    have hmark : (marks letters guess).take (k + 1) =
        (marks letters guess).take k ++ [mark letters guess[k] letters[k]] := by
      rw [List.take_succ_eq_append_getElem (by omega)]
      simp [marks]
    have hzip : (guess.zip letters).take (k + 1) =
        (guess.zip letters).take k ++ [(guess[k], letters[k])] := by
      rw [List.take_succ_eq_append_getElem (by simp; omega)]
      simp
    have hstore : ∀ c,
        ((marks letters guess).take k ++ List.replicate (5 - k) (wide '_') ++ [0]).set k c =
        (marks letters guess).take k ++ [c] ++ List.replicate (5 - (k + 1)) (wide '_') ++ [0] := by
      intro c
      rw [List.append_assoc, List.set_append_right _ _ (by simp [hlen]), List.length_take, hlen,
        show k - min k 5 = 0 by omega, show 5 - k = 5 - (k + 1) + 1 by omega, List.replicate_succ]
      simp
    have hkeep : (marks letters guess).take k ++ List.replicate (5 - k) (wide '_') ++ [0] =
        (marks letters guess).take k ++ [wide '_'] ++
          List.replicate (5 - (k + 1)) (wide '_') ++ [0] := by
      rw [show 5 - k = 5 - (k + 1) + 1 by omega, List.replicate_succ]
      simp
    rw [List.range_succ, List.foldl_append, ih (by omega), List.foldl_cons, List.foldl_nil,
      compareStep,
      ha, hb, hmark, hzip, List.countP_append, mark]
    by_cases heq : guess[k] = letters[k]
    · rw [if_pos heq, if_pos heq, hstore]
      simp [heq]
    · rw [if_neg heq, if_neg heq]
      by_cases hmem : guess[k] ∈ letters
      · rw [if_pos ((any_range_iff hletters _).mpr hmem), if_pos hmem, hstore]
        simp [heq]
      · rw [if_neg (mt (any_range_iff hletters _).mp hmem), if_neg hmem, hkeep]
        simp [heq]

theorem compareWords_eq (hletters : letters.length = 5) (hguess : guess.length = 5) :
    compareWords (letters ++ [0]) (guess ++ [0]) =
      ⟨marks letters guess ++ [0], (guess.zip letters).countP fun x => x.1 = x.2⟩ := by
  have hall := foldl_compareStep hletters hguess le_rfl
  rw [List.take_of_length_le (by simp [marks, hletters, hguess]),
    List.take_of_length_le (by simp [hletters, hguess])] at hall
  rw [Nat.sub_self, List.replicate_zero, List.append_nil] at hall
  exact hall

theorem countP_zip_eq_five_iff (hletters : letters.length = 5) (hguess : guess.length = 5) :
    ((guess.zip letters).countP fun x => x.1 = x.2) = 5 ↔ guess = letters := by
  have hlen : (guess.zip letters).length = 5 := by simp [hletters, hguess]
  rw [← hlen, List.countP_eq_length]
  constructor
  · intro h
    apply List.ext_getElem (by omega)
    intro i hi hi'
    have hmem : (guess[i], letters[i]) ∈ guess.zip letters := by
      rw [List.mem_iff_getElem]
      exact ⟨i, by simp; omega, by simp⟩
    simpa using h _ hmem
  · rintro rfl x hx
    obtain ⟨i, hi, rfl⟩ := List.mem_iff_getElem.mp hx
    simp

theorem mark_ne_zero (a b : CHAR16) : mark letters a b ≠ 0 := by
  unfold mark
  split_ifs <;> decide

theorem takeWhile_marks : (marks letters guess ++ [0]).takeWhile (· ≠ 0) = marks letters guess := by
  rw [List.takeWhile_append_of_pos]
  · simp
  · intro c hc
    obtain ⟨a, b, rfl⟩ : ∃ a b, mark letters a b = c := by
      rw [marks, List.mem_iff_getElem] at hc
      obtain ⟨i, hi, rfl⟩ := hc
      exact ⟨_, _, List.getElem_zipWith.symm⟩
    simpa using mark_ne_zero a b

theorem moveStep_eq (hletters : letters.length = 5) (s : WordleState) (move : ℕ) :
    moveStep (letters ++ [0]) keys s move =
      { strokes := s.strokes + 5
        screen := s.screen ++ shownMove letters (guessAt keys s.strokes)
        booted := if guessAt keys s.strokes = letters then s.booted ++ [3] else s.booted
        ended := guessAt keys s.strokes = letters } := by
  have hnewline : ([wide '\n', 0] : List CHAR16).takeWhile (· ≠ 0) = [wide '\n'] := by decide
  simp only [moveStep, foldl_typeStep_five, compareWords_eq hletters (length_guessAt _),
    countP_zip_eq_five_iff hletters (length_guessAt _), outputString, hnewline, takeWhile_marks,
    shownMove, List.append_assoc]

/-- From a game that is not over: the moves made, and which of them are right. -/
theorem run_moveStep (keys : ℕ → CHAR16) (hletters : letters.length = 5) (s : WordleState)
    (hs : s.ended = false) (moves : List ℕ) (hne : moves ≠ []) :
    ∃ n, n < moves.length ∧
      Run.run (moveStep (letters ++ [0]) keys) WordleState.ended s moves =
        { strokes := s.strokes + 5 * (n + 1)
          screen := s.screen ++ (List.range (n + 1)).flatMap fun k =>
            shownMove letters (guessAt keys (s.strokes + 5 * k))
          booted := if guessAt keys (s.strokes + 5 * n) = letters then s.booted ++ [3] else s.booted
          ended := guessAt keys (s.strokes + 5 * n) = letters } ∧
      (∀ k < n, guessAt keys (s.strokes + 5 * k) ≠ letters) ∧
      (guessAt keys (s.strokes + 5 * n) ≠ letters → n + 1 = moves.length) := by
  induction moves generalizing s with
  | nil => exact absurd rfl hne
  | cons move moves ih =>
    rw [Run.run_cons_of_not_halted hs, moveStep_eq hletters]
    by_cases hright : guessAt keys s.strokes = letters
    · refine ⟨0, by simp, ?_, by simp, fun h => absurd hright h⟩
      rw [Run.run_of_halted (by simpa using hright)]
      simp
    · rw [if_neg hright, decide_eq_false hright]
      by_cases hlast : moves = []
      · subst hlast
        refine ⟨0, by simp, ?_, by simp, by simp⟩
        simp [hright]
      · obtain ⟨n, hn, hrun, hwrong, hall⟩ := ih
          ⟨s.strokes + 5, s.screen ++ shownMove letters (guessAt keys s.strokes), s.booted,
            false⟩ rfl
          hlast
        have hshift : ∀ k, s.strokes + 5 + 5 * k = s.strokes + 5 * (k + 1) := by
          intro k
          omega
        simp only [hshift] at hrun hwrong hall
        refine ⟨n + 1, by simpa using hn, ?_, fun k hk => ?_, fun h => by simpa using hall h⟩
        · rw [hrun, List.range_succ_eq_map (n := n + 1), List.flatMap_cons, List.flatMap_map,
            ← List.append_assoc]
          rfl
        · cases k with
          | zero => exact hright
          | succ k => exact hwrong k (by omega)

end Move

/-- With a word list of at least eleven words, any firmware and any keys, the eleventh word is to be
guessed: guesses are read until it is right, at most six; each is echoed and answered letter by
letter; and boot option three is booted if and only if one of them is right. -/
theorem wordle_game {words : List (List CHAR16)} {io : FileIo}
    (hwords : ∀ word ∈ words, word.length = 5) (hcontent : io.content = wordsText words)
    (hlt : 10 < words.length) (locateProtocol : EFI_STATUS) (keys : ℕ → CHAR16) :
    ∃ n < 6, (playWordle (secret io locateProtocol) keys).strokes = 5 * (n + 1) ∧
      (playWordle (secret io locateProtocol) keys).screen =
        ((List.range (n + 1)).flatMap fun k => shownMove words[10] (guessAt keys (5 * k))) ++
          "Game ended".toList.map wide ∧
      (∀ k < n, guessAt keys (5 * k) ≠ words[10]) ∧
      (guessAt keys (5 * n) ≠ words[10] → n + 1 = 6) ∧
      (playWordle (secret io locateProtocol) keys).booted =
        if words[10] ∈ (List.range 6).map (fun k => guessAt keys (5 * k)) then [3] else [] := by
  have hsecret : secret io locateProtocol = words[10] ++ [0] :=
    extractWord_wordsText hwords hcontent (List.getElem?_eq_getElem hlt)
  have hletters : words[10].length = 5 := hwords _ (List.getElem_mem hlt)
  obtain ⟨n, hn, hrun, hwrong, hall⟩ := run_moveStep keys hletters ⟨0, [], [], false⟩ rfl
    (List.range 6) (by simp)
  rw [List.length_range] at hn hall
  simp only [Nat.zero_add, List.nil_append] at hrun hwrong hall
  have hbooted : guessAt keys (5 * n) = words[10] ↔
      words[10] ∈ (List.range 6).map fun k => guessAt keys (5 * k) := by
    rw [List.mem_map]
    refine ⟨fun h => ⟨n, List.mem_range.mpr hn, h⟩, ?_⟩
    rintro ⟨k, hk, hright⟩
    rw [List.mem_range] at hk
    by_contra hnot
    have hsix := hall hnot
    rcases Nat.lt_or_ge k n with hkn | hkn
    · exact hwrong k hkn hright
    · obtain rfl : k = n := by omega
      exact hnot hright
  rw [hsecret, playWordle, hrun]
  refine ⟨n, hn, rfl, rfl, hwrong, hall, ?_⟩
  dsimp only
  simp only [hbooted]

/-- The game on the first eleven words of `words.txt`, with the last of them typed at once. -/
theorem wordle_game_firstWords :
    (playWordle (secret firstWordsFile EFI_SUCCESS) fun i => firstWords[10].getD i 0).booted =
      if firstWords[10] ∈ (List.range 6).map
        (fun k => guessAt (fun i => firstWords[10].getD i 0) (5 * k)) then [3] else [] := by
  have hwords : ∀ word ∈ firstWords, word.length = 5 := by decide
  have hcontent : firstWordsFile.content = wordsText firstWords := rfl
  obtain ⟨-, -, -, -, -, -, hbooted⟩ := wordle_game hwords hcontent (by decide) EFI_SUCCESS
    fun i => firstWords[10].getD i 0
  exact hbooted

end UefiGame
