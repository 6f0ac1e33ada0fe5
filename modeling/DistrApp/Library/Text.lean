import Mathlib

/-!
# Reading text the way C stdio reads it

Bytes, C strings, the pieces a loop of `fgets` cuts a text into, the words a
loop of `fscanf("%s")` reads from it, and its newline-terminated lines.

The main fact is that the cut is canonical: a list of pieces in which only the
last may be incomplete is the cut of its own concatenation (`pieces_flatten`),
and so is every sublist of one (`Chunked.sublist`).
-/

set_option autoImplicit false

namespace DistrApp.Text

abbrev Bytes := List UInt8

def ascii (text : String) : Bytes := text.toList.map fun c => UInt8.ofNat c.toNat

def newline : UInt8 := 10
def space : UInt8 := 32

/-- `isspace` in the C locale. -/
def isSpace (b : UInt8) : Bool := b = 32 || (9 ≤ b && b ≤ 13)

/-- The string a C buffer holds: its bytes up to the first NUL. -/
def cString (buffer : Bytes) : Bytes := buffer.takeWhile (· ≠ 0)

theorem cString_eq_self {buffer : Bytes} (clean : (0 : UInt8) ∉ buffer) :
    cString buffer = buffer := by
  rw [cString, List.takeWhile_eq_self_iff]
  intro b member
  simp only [ne_eq, decide_eq_true_eq]
  rintro rfl
  exact clean member

/-! ## Pieces -/

/-- The bytes one `fgets` takes with room for `room` of them, and the rest. -/
def cutPiece : Nat → Bytes → Bytes × Bytes
  | 0, text => ([], text)
  | _ + 1, [] => ([], [])
  | room + 1, b :: text =>
      if b = newline then ([b], text)
      else (b :: (cutPiece room text).1, (cutPiece room text).2)

/-- `fgets(line, size, f)` on the unread text of `f`; `none` at end of file. -/
def fgets (size : Nat) (text : Bytes) : Option (Bytes × Bytes) :=
  if text = [] then none else some (cutPiece (size - 1) text)

def piecesFuel (size : Nat) : Nat → Bytes → List Bytes
  | 0, _ => []
  | fuel + 1, text =>
      match fgets size text with
      | none => []
      | some (piece, rest) => piece :: piecesFuel size fuel rest

/-- The lines `while (fgets(line, size, f))` sees. -/
def pieces (size : Nat) (text : Bytes) : List Bytes := piecesFuel size text.length text

theorem cutPiece_append (room : Nat) (text : Bytes) :
    (cutPiece room text).1 ++ (cutPiece room text).2 = text := by
  induction room generalizing text with
  | zero => simp [cutPiece]
  | succ room ih =>
      cases text with
      | nil => simp [cutPiece]
      | cons b text =>
          by_cases ends : b = newline
          · simp [cutPiece, ends]
          · simp [cutPiece, ends, ih text]

theorem cutPiece_length_le (room : Nat) (text : Bytes) :
    (cutPiece room text).1.length ≤ room := by
  induction room generalizing text with
  | zero => simp [cutPiece]
  | succ room ih =>
      cases text with
      | nil => simp [cutPiece]
      | cons b text =>
          by_cases ends : b = newline
          · simp [cutPiece, ends]
          · simpa [cutPiece, ends] using ih text

theorem cutPiece_ne_nil {room : Nat} {text : Bytes} (roomy : 0 < room) (more : text ≠ []) :
    (cutPiece room text).1 ≠ [] := by
  cases room with
  | zero => omega
  | succ room =>
      cases text with
      | nil => exact absurd rfl more
      | cons b text => by_cases ends : b = newline <;> simp [cutPiece, ends]

theorem cutPiece_newline (room : Nat) (text : Bytes) :
    newline ∉ (cutPiece room text).1.dropLast := by
  induction room generalizing text with
  | zero => simp [cutPiece]
  | succ room ih =>
      cases text with
      | nil => simp [cutPiece]
      | cons b text =>
          by_cases ends : b = newline
          · simp [cutPiece, ends]
          · simp only [cutPiece, ends, if_false]
            intro member
            rcases List.eq_nil_or_concat (cutPiece room text).1 with empty | ⟨init, last, shape⟩
            · simp [empty] at member
            · have tail := ih text
              rw [shape, List.concat_eq_append] at member tail
              rw [List.dropLast_concat] at tail
              rw [← List.cons_append, List.dropLast_concat] at member
              rcases List.mem_cons.mp member with head | rest
              · exact ends head.symm
              · exact tail rest

theorem cutPiece_stops (room : Nat) (text : Bytes) (more : (cutPiece room text).2 ≠ []) :
    (cutPiece room text).1.length = room ∨ (cutPiece room text).1.getLast? = some newline := by
  induction room generalizing text with
  | zero => simp [cutPiece]
  | succ room ih =>
      cases text with
      | nil => simp [cutPiece] at more
      | cons b text =>
          by_cases ends : b = newline
          · simp [cutPiece, ends]
          · simp only [cutPiece, ends, if_false] at more ⊢
            rcases ih text more with full | last
            · exact Or.inl (by simp [full])
            · right
              rw [List.getLast?_cons, last, Option.getD_some]

theorem cutPiece_take {room larger : Nat} (small : room ≤ larger) (text : Bytes) :
    (cutPiece room text).1 = (cutPiece larger text).1.take room := by
  induction room generalizing larger text with
  | zero => simp [cutPiece]
  | succ room ih =>
      obtain ⟨larger, rfl⟩ : ∃ m, larger = m + 1 := ⟨larger - 1, by omega⟩
      cases text with
      | nil => simp [cutPiece]
      | cons b text =>
          by_cases ends : b = newline
          · simp [cutPiece, ends]
          · simpa [cutPiece, ends] using ih (by omega) text

theorem fgets_nil (size : Nat) : fgets size [] = none := by simp [fgets]

theorem fgets_some {size : Nat} {text piece rest : Bytes}
    (read : fgets size text = some (piece, rest)) :
    text ≠ [] ∧ piece = (cutPiece (size - 1) text).1 ∧ rest = (cutPiece (size - 1) text).2 := by
  unfold fgets at read
  split at read
  · contradiction
  · rename_i more
    have cut := Option.some.inj read
    exact ⟨more, by rw [cut], by rw [cut]⟩

theorem piecesFuel_enough (size : Nat) (roomy : 1 < size) :
    ∀ (fuel : Nat) (text : Bytes), text.length ≤ fuel →
      piecesFuel size fuel text = pieces size text := by
  have step : ∀ (n fuel : Nat) (text : Bytes), text.length ≤ n → text.length ≤ fuel →
      piecesFuel size fuel text = piecesFuel size n text := by
    intro n
    induction n with
    | zero =>
        intro fuel text short _
        have empty : text = [] := List.eq_nil_of_length_eq_zero (by omega)
        subst empty
        cases fuel <;> simp [piecesFuel, fgets_nil]
    | succ n ih =>
        intro fuel text short enough
        cases fuel with
        | zero =>
            have empty : text = [] := List.eq_nil_of_length_eq_zero (by omega)
            subst empty
            simp [piecesFuel, fgets_nil]
        | succ fuel =>
            simp only [piecesFuel]
            cases read : fgets size text with
            | none => rfl
            | some cut =>
                obtain ⟨more, head, tail⟩ := @fgets_some size text cut.1 cut.2 read
                have whole := congrArg List.length (cutPiece_append (size - 1) text)
                have taken : (cutPiece (size - 1) text).1 ≠ [] := cutPiece_ne_nil (by omega) more
                have positive := List.length_pos_of_ne_nil taken
                rw [List.length_append, ← tail] at whole
                simp only
                rw [ih fuel cut.2 (by omega) (by omega)]
  intro fuel text enough
  exact step text.length fuel text (le_refl _) enough

@[simp] theorem pieces_nil (size : Nat) : pieces size [] = [] := rfl

theorem pieces_cons (size : Nat) (roomy : 1 < size) {text : Bytes} (more : text ≠ []) :
    pieces size text =
      (cutPiece (size - 1) text).1 :: pieces size (cutPiece (size - 1) text).2 := by
  have whole := congrArg List.length (cutPiece_append (size - 1) text)
  have taken : (cutPiece (size - 1) text).1 ≠ [] := cutPiece_ne_nil (by omega) more
  have positive := List.length_pos_of_ne_nil taken
  rw [List.length_append] at whole
  rw [← piecesFuel_enough size roomy (text.length + 1) text (by omega)]
  simp only [piecesFuel, fgets, if_neg more]
  rw [piecesFuel_enough size roomy text.length _ (by omega)]

@[simp] theorem pieces_flatten (size : Nat) (roomy : 1 < size) (text : Bytes) :
    (pieces size text).flatten = text := by
  induction h : text.length using Nat.strong_induction_on generalizing text with
  | _ n ih =>
      by_cases more : text = []
      · simp [more]
      · have whole := cutPiece_append (size - 1) text
        have nonempty : (cutPiece (size - 1) text).1 ≠ [] := cutPiece_ne_nil (by omega) more
        have taken := List.length_pos_of_ne_nil nonempty
        have lengths := congrArg List.length whole
        rw [List.length_append] at lengths
        rw [pieces_cons size roomy more, List.flatten_cons,
          ih (cutPiece (size - 1) text).2.length (by omega) _ rfl, whole]

/-! ## Canonical cuts -/

structure IsPiece (room : Nat) (piece : Bytes) : Prop where
  nonempty : piece ≠ []
  short : piece.length ≤ room
  newlineLast : newline ∉ piece.dropLast

/-- The reader stops after this piece even when more text follows. -/
def Stops (room : Nat) (piece : Bytes) : Prop :=
  piece.length = room ∨ piece.getLast? = some newline

/-- A list of pieces of which only the last may be incomplete. -/
def Chunked (room : Nat) : List Bytes → Prop
  | [] => True
  | piece :: rest => IsPiece room piece ∧ (rest ≠ [] → Stops room piece) ∧ Chunked room rest

theorem Chunked.isPiece {room : Nat} {ps : List Bytes} (shape : Chunked room ps) :
    ∀ p ∈ ps, IsPiece room p := by
  induction ps with
  | nil => intro p member; cases member
  | cons head rest ih =>
      intro p member
      rcases List.mem_cons.mp member with rfl | member
      · exact shape.1
      · exact ih shape.2.2 p member

theorem Chunked.sublist {room : Nat} {qs ps : List Bytes} (sub : qs.Sublist ps)
    (shape : Chunked room ps) : Chunked room qs := by
  induction sub with
  | slnil => trivial
  | cons head _ ih => exact ih shape.2.2
  | cons_cons head sub ih =>
      refine ⟨shape.1, ?_, ih shape.2.2⟩
      intro more
      apply shape.2.1
      rintro rfl
      exact more (List.sublist_nil.mp sub)

theorem Chunked.append {room : Nat} {ps qs : List Bytes} (left : Chunked room ps)
    (right : Chunked room qs) (stops : qs ≠ [] → ∀ p ∈ ps.getLast?, Stops room p) :
    Chunked room (ps ++ qs) := by
  induction ps with
  | nil => exact right
  | cons head rest ih =>
      refine ⟨left.1, ?_, ?_⟩
      · intro more
        cases rest with
        | nil => exact stops (by simpa using more) head (by simp)
        | cons next rest => exact left.2.1 (by simp)
      · apply ih left.2.2
        intro more p last
        apply stops more p
        cases rest with
        | nil => simp at last
        | cons next rest => simpa [List.getLast?_cons_cons] using last

theorem cutPiece_of_piece {room : Nat} {piece : Bytes} (shape : IsPiece room piece) (rest : Bytes)
    (stops : rest = [] ∨ Stops room piece) : cutPiece room (piece ++ rest) = (piece, rest) := by
  induction piece generalizing room with
  | nil => exact absurd rfl shape.nonempty
  | cons b tail ih =>
      have short := shape.short
      cases room with
      | zero => simp at short
      | succ room =>
          by_cases ends : b = newline
          · have alone : tail = [] := by
              by_contra more
              apply shape.newlineLast
              rw [List.dropLast_cons_of_ne_nil more, ends]
              exact List.mem_cons_self
            simp [cutPiece, ends, alone]
          · simp only [List.cons_append, cutPiece, if_neg ends]
            by_cases more : tail = []
            · subst more
              rcases stops with rfl | full | last
              · cases room <;> simp [cutPiece]
              · have noRoom : room = 0 := by simpa using full.symm
                simp [noRoom, cutPiece]
              · exact absurd (by simpa using last) ends
            · have inner : IsPiece room tail := by
                refine ⟨more, by simpa using short, ?_⟩
                intro member
                apply shape.newlineLast
                rw [List.dropLast_cons_of_ne_nil more]
                exact List.mem_cons_of_mem _ member
              have innerStops : rest = [] ∨ Stops room tail := by
                rcases stops with empty | full | last
                · exact Or.inl empty
                · exact Or.inr (Or.inl (by simpa using full))
                · refine Or.inr (Or.inr ?_)
                  obtain ⟨next, tail', rfl⟩ := List.exists_cons_of_ne_nil more
                  simpa [List.getLast?_cons_cons] using last
              rw [ih inner innerStops]

/-- A canonical list of pieces is what the reading loop sees of its own text. -/
theorem pieces_of_chunked {room : Nat} (roomy : 0 < room) {ps : List Bytes}
    (shape : Chunked room ps) : pieces (room + 1) ps.flatten = ps := by
  induction ps with
  | nil => rfl
  | cons head rest ih =>
      have more : (head :: rest).flatten ≠ [] := by
        simp [shape.1.nonempty]
      have stops : rest.flatten = [] ∨ Stops room head := by
        by_cases empty : rest = []
        · exact Or.inl (by simp [empty])
        · exact Or.inr (shape.2.1 empty)
      rw [pieces_cons (room + 1) (by omega) more, List.flatten_cons, Nat.add_sub_cancel,
        cutPiece_of_piece shape.1 rest.flatten stops, ih shape.2.2]

theorem chunked_pieces (size : Nat) (roomy : 1 < size) (text : Bytes) :
    Chunked (size - 1) (pieces size text) := by
  induction h : text.length using Nat.strong_induction_on generalizing text with
  | _ n ih =>
      by_cases more : text = []
      · simp [more, Chunked]
      · have whole := congrArg List.length (cutPiece_append (size - 1) text)
        have taken : (cutPiece (size - 1) text).1 ≠ [] := cutPiece_ne_nil (by omega) more
        have positive := List.length_pos_of_ne_nil taken
        rw [List.length_append] at whole
        rw [pieces_cons size roomy more]
        refine ⟨⟨taken, cutPiece_length_le _ _, cutPiece_newline _ _⟩, ?_,
          ih (cutPiece (size - 1) text).2.length (by omega) _ rfl⟩
        intro rest
        apply cutPiece_stops
        intro empty
        exact rest (by rw [empty, pieces_nil])

/-! ## Lines -/

/-- The lines of a text, each with its newline: pieces of a buffer that never
fills up. -/
def lines (text : Bytes) : List Bytes := pieces (text.length + 2) text

theorem Chunked.resize {room room' : Nat} {ps : List Bytes} (shape : Chunked room ps)
    (small : ∀ p ∈ ps, p.length < room ∧ p.length ≤ room') : Chunked room' ps := by
  induction ps with
  | nil => trivial
  | cons head rest ih =>
      obtain ⟨below, fits⟩ := small head List.mem_cons_self
      refine ⟨⟨shape.1.nonempty, fits, shape.1.newlineLast⟩, ?_,
        ih shape.2.2 fun p member => small p (List.mem_cons_of_mem _ member)⟩
      intro more
      rcases shape.2.1 more with full | last
      · omega
      · exact Or.inr last

theorem length_le_flatten {ps : List Bytes} {p : Bytes} (member : p ∈ ps) :
    p.length ≤ ps.flatten.length := by
  rw [List.length_flatten]
  exact List.single_le_sum (by simp) _ (List.mem_map_of_mem member)

theorem lines_of_chunked {room : Nat} {ls : List Bytes} (shape : Chunked room ls)
    (roomy : ls.flatten.length < room) : lines ls.flatten = ls := by
  apply pieces_of_chunked (by omega)
  apply shape.resize
  intro l member
  have short := length_le_flatten member
  omega

theorem chunked_lines (text : Bytes) {room : Nat} (roomy : text.length < room) :
    Chunked room (lines text) := by
  apply (chunked_pieces (text.length + 2) (by omega) text).resize
  intro l member
  have short := length_le_flatten member
  rw [pieces_flatten _ (by omega)] at short
  omega

@[simp] theorem lines_flatten (text : Bytes) : (lines text).flatten = text :=
  pieces_flatten _ (by omega) text

theorem lines_of_sublist {text : Bytes} {ls : List Bytes} (sub : ls.Sublist (lines text)) :
    lines ls.flatten = ls := by
  have short : ls.flatten.length ≤ text.length := by
    have := sub.flatten.length_le
    rwa [lines_flatten] at this
  exact lines_of_chunked ((chunked_lines text (Nat.lt_succ_self _)).sublist sub) (by omega)

theorem getLast?_flatten {ps : List Bytes} (solid : ∀ p ∈ ps, p ≠ []) :
    ps.flatten.getLast? = ps.getLast?.bind List.getLast? := by
  rcases List.eq_nil_or_concat ps with rfl | ⟨init, last, rfl⟩
  · rfl
  · have nonempty : last ≠ [] := solid last (by simp)
    rw [List.concat_eq_append, List.flatten_append, List.getLast?_append, List.getLast?_concat]
    simp [List.getLast?_eq_some_getLast nonempty]

/-- `fgets` never reads past a newline: the pieces of a text are the pieces of
its lines. -/
theorem pieces_eq_flatMap_lines (size : Nat) (roomy : 1 < size) (text : Bytes) :
    pieces size text = (lines text).flatMap (pieces size) := by
  have chunks : ∀ (room : Nat) (ls : List Bytes), Chunked room ls → ls.flatten.length < room →
      Chunked (size - 1) (ls.flatMap (pieces size)) ∧
        (ls.flatMap (pieces size)).flatten = ls.flatten := by
    intro room ls
    induction ls with
    | nil => intro _ _; exact ⟨trivial, rfl⟩
    | cons head rest ih =>
        intro shape roomy'
        rw [List.flatten_cons, List.length_append] at roomy'
        obtain ⟨tail, joined⟩ := ih shape.2.2 (by omega)
        refine ⟨?_, by simp [joined, pieces_flatten size roomy]⟩
        rw [List.flatMap_cons]
        refine (chunked_pieces size roomy head).append tail ?_
        intro more p last
        have notLast : rest ≠ [] := by
          rintro rfl
          exact more rfl
        have ends : head.getLast? = some newline := by
          rcases shape.2.1 notLast with full | ends
          · omega
          · exact ends
        have solid := fun q member => ((chunked_pieces size roomy head).isPiece q member).nonempty
        have joinedLast := getLast?_flatten solid
        rw [pieces_flatten size roomy, ends, Option.mem_def.mp last] at joinedLast
        exact Or.inr joinedLast.symm
  obtain ⟨shape, joined⟩ := chunks _ _ (chunked_lines text (Nat.lt_succ_self _)) (by simp)
  have canonical := pieces_of_chunked (by omega) shape
  rwa [joined, lines_flatten, Nat.sub_add_cancel (by omega)] at canonical

@[simp] theorem lines_nil : lines [] = [] := rfl

def Finished (text : Bytes) : Prop := text = [] ∨ text.getLast? = some newline

theorem lines_append {text : Bytes} (finished : Finished text) (more : Bytes) :
    lines (text ++ more) = lines text ++ lines more := by
  have left : Chunked ((text ++ more).length + 1) (lines text) :=
    chunked_lines text (by rw [List.length_append]; omega)
  have right : Chunked ((text ++ more).length + 1) (lines more) :=
    chunked_lines more (by rw [List.length_append]; omega)
  have shape := left.append right (by
    intro _ p last
    have solid := fun q member => (left.isPiece q member).nonempty
    have joined := getLast?_flatten solid
    rw [lines_flatten, Option.mem_def.mp last] at joined
    rcases finished with rfl | ends
    · simp [lines] at last
    · rw [ends] at joined
      exact Or.inr joined.symm)
  have whole := lines_of_chunked shape (by simp)
  rwa [List.flatten_append, lines_flatten, lines_flatten] at whole

theorem line_ends {text line : Bytes} (finished : Finished text) (member : line ∈ lines text) :
    line.getLast? = some newline := by
  have shape : Chunked (text.length + 1) (lines text) := chunked_lines text (Nat.lt_succ_self _)
  have joined : (lines text).flatten.getLast? = (lines text).getLast?.bind List.getLast? :=
    getLast?_flatten fun p inside => (shape.isPiece p inside).nonempty
  rw [lines_flatten] at joined
  obtain ⟨before, after, split⟩ := List.append_of_mem member
  have stops : ∀ (ps : List Bytes), Chunked (text.length + 1) (ps ++ line :: after) →
      after ≠ [] → Stops (text.length + 1) line := by
    intro ps
    induction ps with
    | nil => intro chunked more; exact chunked.2.1 more
    | cons head rest ih => intro chunked more; exact ih chunked.2.2 more
  by_cases last : after = []
  · rcases finished with rfl | ends
    · simp at member
    · subst last
      rw [split, ends, List.getLast?_concat] at joined
      exact joined.symm
  · rcases stops before (split ▸ shape) last with full | ends
    · have short := length_le_flatten member
      rw [lines_flatten] at short
      omega
    · exact ends

theorem finished_of_sublist {text : Bytes} (finished : Finished text) {ls : List Bytes}
    (sub : ls.Sublist (lines text)) : Finished ls.flatten := by
  rcases List.eq_nil_or_concat ls with rfl | ⟨init, last, rfl⟩
  · exact Or.inl rfl
  · right
    rw [List.concat_eq_append] at sub ⊢
    have ends := line_ends finished (sub.subset (List.mem_append_right init (List.mem_singleton.mpr rfl)))
    rw [List.flatten_append, List.flatten_singleton, List.getLast?_append, ends]
    rfl

theorem lines_single {body : Bytes} (plain : newline ∉ body) :
    lines (body ++ [newline]) = [body ++ [newline]] := by
  have shape : Chunked ((body ++ [newline]).length + 1) [body ++ [newline]] :=
    ⟨⟨by simp, by simp, by simpa using plain⟩, fun more => absurd rfl more, trivial⟩
  simpa using lines_of_chunked shape (by simp)

theorem isLine_of_mem {text line : Bytes} (member : line ∈ lines text) :
    line ≠ [] ∧ newline ∉ line.dropLast :=
  have piece := (chunked_lines text (Nat.lt_succ_self _)).isPiece line member
  ⟨piece.nonempty, piece.newlineLast⟩

/-! ## Words -/

/-- The words `while (fscanf(f, "%s", word) == 1)` reads. -/
def words (text : Bytes) : List Bytes := (text.splitOnP isSpace).filter (· ≠ [])

@[simp] theorem words_nil : words [] = [] := rfl

theorem words_append_cons (before after : Bytes) {b : UInt8} (gap : isSpace b = true) :
    words (before ++ b :: after) = words before ++ words after := by
  rw [words, List.splitOnP_append_cons before after gap, List.filter_append, words, words]

theorem words_single {word : Bytes} (nonempty : word ≠ [])
    (plain : ∀ b ∈ word, isSpace b = false) : words word = [word] := by
  rw [words, List.splitOnP_eq_singleton plain]
  simp [nonempty]

theorem splitOnP_infixes (p : UInt8 → Bool) (text : Bytes) :
    ∃ first rest, text.splitOnP p = first :: rest ∧ first <+: text ∧
      ∀ part ∈ rest, part <:+: text := by
  induction text with
  | nil => exact ⟨[], [], by simp, List.prefix_rfl, by simp⟩
  | cons b text ih =>
      obtain ⟨first, rest, split, start, inside⟩ := ih
      rw [List.splitOnP_cons_eq_if_modifyHead, split]
      by_cases here : p b = true
      · rw [if_pos here]
        refine ⟨[], first :: rest, rfl, List.nil_prefix, ?_⟩
        rw [List.forall_mem_cons]
        exact ⟨List.infix_cons start.isInfix, fun part member => List.infix_cons (inside part member)⟩
      · rw [if_neg here]
        exact ⟨b :: first, rest, rfl, List.cons_prefix_cons.mpr ⟨rfl, start⟩,
          fun part member => List.infix_cons (inside part member)⟩

theorem infix_of_mem_words {text word : Bytes} (member : word ∈ words text) : word <:+: text := by
  obtain ⟨first, rest, split, start, inside⟩ := splitOnP_infixes isSpace text
  have part := (List.mem_filter.mp member).1
  rw [split] at part
  rcases List.mem_cons.mp part with rfl | later
  · exact start.isInfix
  · exact inside word later

theorem words_append {text : Bytes} (finished : Finished text) (more : Bytes) :
    words (text ++ more) = words text ++ words more := by
  rcases finished with rfl | ends
  · rfl
  · obtain ⟨body, rfl⟩ := List.getLast?_eq_some_iff.mp ends
    have gap : isSpace newline = true := by decide
    rw [List.append_assoc, List.singleton_append, words_append_cons _ _ gap,
      words_append_cons _ _ gap, words_nil, List.append_nil]

/-- A list of pieces no word crosses: each ends with a newline, or is the last,
or is followed by a lone newline. -/
def Parted : List Bytes → Prop
  | [] => True
  | piece :: rest =>
      (rest ≠ [] → piece.getLast? = some newline ∨ rest.head? = some [newline]) ∧ Parted rest

theorem words_parted {ps : List Bytes} (parted : Parted ps) : words ps.flatten = ps.flatMap words := by
  induction ps with
  | nil => rfl
  | cons piece rest ih =>
      have tail := ih parted.2
      rw [List.flatten_cons, List.flatMap_cons, ← tail]
      by_cases last : rest = []
      · rw [last, List.flatten_nil, List.append_nil, words_nil, List.append_nil]
      · rcases parted.1 last with ends | alone
        · exact words_append (Or.inr ends) _
        · obtain ⟨more, rfl⟩ := List.head?_eq_some_iff.mp alone
          have gap : isSpace newline = true := by decide
          rw [List.flatten_cons, List.singleton_append, words_append_cons _ _ gap]
          exact congrArg _ (words_append_cons [] _ gap).symm

theorem Parted.filter {ps : List Bytes} (parted : Parted ps) {p : Bytes → Bool}
    (keeps : p [newline] = true) : Parted (ps.filter p) := by
  induction ps with
  | nil => trivial
  | cons piece rest ih =>
      have tail := ih parted.2
      rw [List.filter_cons]
      split
      · refine ⟨fun more => ?_, tail⟩
        have some_left : rest ≠ [] := by
          rintro rfl
          exact more rfl
        refine (parted.1 some_left).imp_right fun alone => ?_
        obtain ⟨later, rfl⟩ := List.head?_eq_some_iff.mp alone
        rw [List.filter_cons_of_pos keeps]
        rfl
      · exact tail

theorem Parted.append {ps qs : List Bytes} (left : Parted ps) (right : Parted qs)
    (ends : qs ≠ [] → ∀ p ∈ ps.getLast?, p.getLast? = some newline) : Parted (ps ++ qs) := by
  induction ps with
  | nil => exact right
  | cons piece rest ih =>
      refine ⟨fun more => ?_, ih left.2 fun later p last => ?_⟩
      · cases rest with
        | nil => exact Or.inl (ends more piece rfl)
        | cons next rest => exact left.1 (by simp)
      · refine ends later p ?_
        rw [List.getLast?_cons, Option.mem_def.mp last]
        rfl

theorem Chunked.parted {room : Nat} {ls : List Bytes} (shape : Chunked room ls)
    (roomy : ls.flatten.length < room) : Parted ls := by
  induction ls with
  | nil => trivial
  | cons line rest ih =>
      rw [List.flatten_cons, List.length_append] at roomy
      refine ⟨fun more => Or.inl ?_, ih shape.2.2 (by omega)⟩
      rcases shape.2.1 more with full | ends
      · omega
      · exact ends

theorem parted_lines (text : Bytes) : Parted (lines text) :=
  (chunked_lines text (Nat.lt_succ_self _)).parted (by simp)

theorem words_lines (text : Bytes) : words text = (lines text).flatMap words := by
  have whole := words_parted (parted_lines text)
  rwa [lines_flatten] at whole

def body (line : Bytes) : Bytes := line.takeWhile (· ≠ newline)

theorem line_cases {text line : Bytes} (member : line ∈ lines text) :
    newline ∉ body line ∧ (line = body line ∨ line = body line ++ [newline]) := by
  have plain : newline ∉ body line := by
    intro inside
    simpa using List.mem_takeWhile_imp inside
  refine ⟨plain, ?_⟩
  obtain ⟨nonempty, inner⟩ := isLine_of_mem member
  obtain ⟨init, last, rfl⟩ := (List.eq_nil_or_concat line).resolve_left nonempty
  rw [List.concat_eq_append] at inner ⊢
  rw [List.dropLast_concat] at inner
  have start : init.takeWhile (· ≠ newline) = init :=
    List.takeWhile_eq_self_iff.mpr fun b member => by
      simpa using fun same : b = newline => inner (same ▸ member)
  by_cases ends : last = newline
  · right
    rw [body, List.takeWhile_append_of_pos fun b member => ?_]
    · simp [ends]
    · simpa using fun same : b = newline => inner (same ▸ member)
  · left
    rw [body, List.takeWhile_append, start, if_pos rfl]
    simp [ends]

theorem pieces_of_short {size : Nat} {text line : Bytes} (member : line ∈ lines text)
    (fits : line.length < size) : pieces size line = [line] := by
  have some_text := List.length_pos_of_ne_nil (isLine_of_mem member).1
  have shape : Chunked (size - 1) [line] :=
    ⟨⟨(isLine_of_mem member).1, by omega, (isLine_of_mem member).2⟩,
      fun more => absurd rfl more, trivial⟩
  have single := pieces_of_chunked (by omega) shape
  rwa [Nat.sub_add_cancel (by omega), List.flatten_singleton] at single

theorem pieces_line {size : Nat} (roomy : 1 < size) {text line : Bytes} (member : line ∈ lines text)
    (short : (body line).length < size) :
    pieces size line = [line] ∨ pieces size line = [body line, [newline]] := by
  obtain ⟨plain, same | ended⟩ := line_cases member
  · exact Or.inl (pieces_of_short member (by rwa [← same] at short))
  · by_cases fits : line.length < size
    · exact Or.inl (pieces_of_short member fits)
    · right
      have full : (body line).length = size - 1 := by
        have sized := congrArg List.length ended
        rw [List.length_append, List.length_singleton] at sized
        omega
      have shape : Chunked (size - 1) [body line, [newline]] := by
        refine ⟨⟨fun empty => ?_, full.le, fun inside => plain (List.dropLast_subset _ inside)⟩,
          fun _ => Or.inl full, ⟨by simp, by simp; omega, by simp⟩, fun more => absurd rfl more,
          trivial⟩
        rw [empty, List.length_nil] at full
        omega
      have cut := pieces_of_chunked (by omega) shape
      rw [Nat.sub_add_cancel (by omega)] at cut
      simpa [← ended] using cut

theorem parted_flatMap {size : Nat} (roomy : 1 < size) {room : Nat} {ls : List Bytes}
    (shape : Chunked room ls) (short : ls.flatten.length < room)
    (each : ∀ line ∈ ls, Parted (pieces size line)) : Parted (ls.flatMap (pieces size)) := by
  induction ls with
  | nil => trivial
  | cons line rest ih =>
      rw [List.flatten_cons, List.length_append] at short
      have tail := ih shape.2.2 (by omega) fun later member =>
        each later (List.mem_cons_of_mem _ member)
      rw [List.flatMap_cons]
      refine (each line List.mem_cons_self).append tail fun more p last => ?_
      have some_left : rest ≠ [] := by
        rintro rfl
        exact more rfl
      have ends : line.getLast? = some newline := by
        rcases shape.2.1 some_left with full | ends
        · omega
        · exact ends
      have joined := getLast?_flatten fun q member =>
        ((chunked_pieces size roomy line).isPiece q member).nonempty
      rw [pieces_flatten size roomy, ends, Option.mem_def.mp last] at joined
      exact joined.symm

/-- In pieces that hold the body of every line, no word is cut. -/
theorem parted_pieces {size : Nat} (roomy : 1 < size) {text : Bytes}
    (short : ∀ line ∈ lines text, (body line).length < size) : Parted (pieces size text) := by
  rw [pieces_eq_flatMap_lines size roomy]
  refine parted_flatMap roomy (chunked_lines text (Nat.lt_succ_self _)) (by simp) ?_
  intro line member
  rcases pieces_line roomy member (short line member) with whole | cut
  · rw [whole]
    exact ⟨fun more => absurd rfl more, trivial⟩
  · rw [cut]
    exact ⟨fun _ => Or.inr rfl, fun more => absurd rfl more, trivial⟩

end DistrApp.Text
