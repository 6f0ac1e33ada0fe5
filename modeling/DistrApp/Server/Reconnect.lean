import DistrApp.Server.Arrays
import DistrApp.Server.Distinct

/-!
# CONNECT and the words of the table

`connect_serv` compares the name with every word of conectados.txt, hosts and
ports included, and not with the first fields.  After `disconnect_serv`, which
drops every piece with the name in it, no word is the name any more, so that
the user can always connect again.
-/

set_option autoImplicit false

namespace DistrApp.Server

open Text FileTree Effects

/-- CONNECT refuses a user who has an entry, and adds one for any other. -/
def ConnectExact (s : Sys) (username freePort freeServer : Bytes) : Prop :=
  ∃ reply s', (connectServ username freePort freeServer).run s = .ok reply s' ∧
    (Listed s.tree username → reply = ascii "2" ∧ table s'.tree = table s.tree) ∧
    (¬ Listed s.tree username → reply = ascii "0" ∧ table s'.tree =
      (table s.tree).map fun text => text ++ tableEntry username freeServer freePort)

/-- The name fits its array, the table opens, each of its words is stored
inside `user`, and the name is one of them just when it is a first field. -/
structure WordTestExact (s : Sys) (username text : Bytes) : Prop where
  short : username.length < 244
  opens : s.fails 0 = false
  fit : WordsFit 256 username (words text)
  exact : username ∈ words text ↔ ∃ line ∈ lines text, firstField line = username

/-! ## The scan -/

theorem scanWords_found {size : Nat} {username : Bytes} {read : List Bytes}
    (found : scanWords size username read = some true) : ∃ word ∈ read, cString word = username := by
  induction read with
  | nil => cases found
  | cons word rest ih =>
      rw [scanWords] at found
      split at found
      · cases found
      · split at found
        · rename_i here
          exact ⟨word, List.mem_cons_self, here⟩
        · obtain ⟨later, member, same⟩ := ih found
          exact ⟨later, List.mem_cons_of_mem _ member, same⟩

theorem scanWords_of_fit {size : Nat} {username text : Bytes} (clean : (0 : UInt8) ∉ text)
    (fit : WordsFit size username (words text)) :
    scanWords size username (words text) = some (decide (username ∈ words text)) := by
  have plain : ∀ word ∈ words text, cString word = word := fun word member =>
    cString_eq_self fun inside => clean ((infix_of_mem_words member).subset inside)
  obtain ⟨found, scanned⟩ := Option.ne_none_iff_exists'.mp (scanWords_ne_none.mpr fit)
  rw [scanned]
  cases found with
  | true =>
      obtain ⟨word, member, same⟩ := scanWords_found scanned
      rw [plain word member] at same
      rw [decide_eq_true (same ▸ member)]
  | false =>
      rw [decide_eq_false fun member => scanWords_fresh scanned _ member (plain _ member)]

theorem openAppend_of_table {t : FileTree} {text : Bytes} (rooted : Rooted t)
    (here : table t = some text) : t.openAppend conectadosTxt = some (tablePath t, text, t) := by
  have node := table_eq_some.mp here
  have inside := usuarios_isDir node
  rw [openAppend, creatable_table rooted, if_pos ⟨inside, by rw [node]; simp⟩, Option.map_some, node]

theorem table_append {t : FileTree} {text : Bytes} (here : table t = some text) (more : Bytes) :
    table (t.append (tablePath t) more) = some (text ++ more) :=
  table_of_node_file (append_cwd _ _ _) (node_append (table_eq_some.mp here) more)

section Connecting
variable {s : Sys} {username text : Bytes}

theorem run_connectServ_table (registered : s.tree.access (folderOf username) = true)
    (here : table s.tree = some text) (freePort freeServer : Bytes) :
    ∃ s₁ : Sys, s₁.tree = s.tree ∧ ∃ handles,
      (connectServ username freePort freeServer).run s =
        if 244 ≤ username.length then .error .overflow s
        else if s.fails 0 then .error .nullStream s.afterFault
        else match scanWords 256 username (words text) with
          | none => .error .overflow s₁
          | some true => .ok (ascii "2") { s.afterFault with handles := handles }
          | some false => .ok (ascii "0")
              { s.afterFault with
                tree := s.tree.append (tablePath s.tree) (tableEntry username freeServer freePort)
                handles := handles } := by
  have opened := openAppend_of_table (rooted_of_access registered) here
  refine ⟨{ s.afterFault with handles := s.handles ++ [.opened s.handles.length] }, rfl,
    s.handles ++ [.opened s.handles.length] ++ [.closed s.handles.length], ?_⟩
  simp only [connectServ, run_ite, run_sprintf, run_access, length_folderOf_lt, registered]
  by_cases long : 244 ≤ username.length
  · rw [if_neg (by omega), if_pos long]
  · rw [if_pos (by omega), if_neg long, EStateM.run_bind, fopen_run, headD_faults]
    cases s.fails 0 with
    | true => rfl
    | false =>
        simp only [Bool.not_true, Bool.false_eq_true, if_false, openFile, opened, run_unread_some,
          run_findWord]
        cases scanWords 256 username (words text) with
        | none => rfl
        | some found => cases found <;> rfl

/-- On every reachable table, CONNECT of a registered user decides by the
entries if and only if the word test does. -/
theorem connect_exact_iff (reached : Reachable s.tree)
    (registered : s.tree.access (folderOf username) = true) (here : table s.tree = some text)
    (freePort freeServer : Bytes) :
    ConnectExact s username freePort freeServer ↔ WordTestExact s username text := by
  have clean := reachable_tableClean reached text here
  have listed : Listed s.tree username ↔ ∃ line ∈ lines text, firstField line = username := by
    constructor
    · rintro ⟨other, same, entry⟩
      rw [here] at same
      cases same
      exact entry
    · exact fun entry => ⟨text, here, entry⟩
  obtain ⟨s₁, -, handles, ran⟩ := run_connectServ_table registered here freePort freeServer
  rw [ConnectExact, ran, listed, here]
  constructor
  · rintro ⟨reply, s', finished, refuses, adds⟩
    split at finished
    · cases finished
    · rename_i short
      split at finished
      · cases finished
      · rename_i opens
        have fit : WordsFit 256 username (words text) := by
          rw [← scanWords_ne_none]
          intro unfit
          rw [unfit] at finished
          cases finished
        refine ⟨not_le.mp short, Bool.eq_false_iff.mpr opens, fit, ?_⟩
        rw [scanWords_of_fit clean fit] at finished
        by_cases word : username ∈ words text
        · rw [decide_eq_true word] at finished
          cases finished
          refine iff_of_true word (by_contra fun free => ?_)
          exact absurd (adds free).1 (by decide)
        · rw [decide_eq_false word] at finished
          cases finished
          refine iff_of_false word fun entry => ?_
          exact absurd (refuses entry).1 (by decide)
  · intro test
    rw [if_neg (not_le.mpr test.short), test.opens, if_neg Bool.false_ne_true,
      scanWords_of_fit clean test.fit]
    by_cases word : username ∈ words text
    · rw [decide_eq_true word]
      exact ⟨_, _, rfl, fun _ => ⟨rfl, here⟩, fun free => absurd (test.exact.mp word) free⟩
    · rw [decide_eq_false word]
      exact ⟨_, _, rfl, fun entry => absurd (test.exact.mpr entry) word,
        fun _ => ⟨rfl, table_append here _⟩⟩

end Connecting

def anaBesides : List Request :=
  anaConnected ++ [.register (ascii "bob"), .register (ascii "4001")]

theorem reachable_anaBesides : Reachable (treeAfter firstStart anaBesides) :=
  reachable_treeAfter (by decide) (by decide +kernel)

theorem table_anaBesides :
    table (treeAfter firstStart anaBesides) = some (ascii "ana 10.0.0.1 4001 \n") := by
  decide +kernel

theorem connect_exact_iff_bob :
    ConnectExact ⟨treeAfter firstStart anaBesides, [], []⟩ (ascii "bob") (ascii "4002")
      (ascii "10.0.0.2") :=
  (@connect_exact_iff ⟨treeAfter firstStart anaBesides, [], []⟩ (ascii "bob")
    (ascii "ana 10.0.0.1 4001 \n") reachable_anaBesides (by decide +kernel) table_anaBesides
    (ascii "4002") (ascii "10.0.0.2")).mpr
    ⟨by decide, rfl, scanWords_ne_none.mp (by decide), iff_of_false (by decide) (by decide)⟩

theorem connect_refuses_port :
    ¬ ∀ (s : Sys) (username freePort freeServer text : Bytes), Reachable s.tree → s.faults = [] →
      (Request.connect username freePort freeServer).Deliverable →
      s.tree.access (folderOf username) = true → table s.tree = some text →
      ConnectExact s username freePort freeServer := by
  intro always
  obtain ⟨reply, s', ran, -, adds⟩ := always ⟨treeAfter firstStart anaBesides, [], []⟩
    (ascii "4001") (ascii "4003") (ascii "10.0.0.3") (ascii "ana 10.0.0.1 4001 \n")
    reachable_anaBesides rfl (by decide) (by decide +kernel) table_anaBesides
  have free : ¬ Listed (treeAfter firstStart anaBesides) (ascii "4001") := by
    rintro ⟨text, same, entry⟩
    rw [table_anaBesides] at same
    cases same
    exact absurd entry (by decide)
  have refused : resOf ((serve (.connect (ascii "4001") (ascii "4003") (ascii "10.0.0.3"))).run
      ⟨treeAfter firstStart anaBesides, [], []⟩) = some (ascii "2") := by decide +kernel
  rw [serve, run_answer_ok ran, resOf, (adds free).1] at refused
  exact absurd refused (by decide)

/-! ## After DISCONNECT -/

section Leaving
variable {username text : Bytes}

theorem Swapped.sameDirs {t t' : FileTree} (swapped : Swapped username text t t')
    (here : table t = some text) (tempFree : t.node (tempPath t) ≠ some .dir) : SameDirs t t' := by
  refine ⟨swapped.cwd, fun q => ?_⟩
  by_cases atTable : q = tablePath t
  · rw [atTable, swapped.tableKept, table_eq_some.mp here]
    simp
  · by_cases atTemp : q = tempPath t
    · rw [atTemp, swapped.tempGone]
      simpa using tempFree
    · rw [swapped.others q atTable atTemp]

/-- What DISCONNECT leaves is cut into the pieces it has kept, and no word is
cut; none of them holds the name. -/
theorem words_kept (clean : (0 : UInt8) ∉ text)
    (short : ∀ line ∈ lines text, (body line).length ≤ 255)
    (word : username ≠ [] ∧ ∀ b ∈ username, isSpace b = false) :
    ∀ w ∈ words (kept username text), w.length ≤ 255 ∧ w ≠ username := by
  have parted : Parted (pieces 256 text) :=
    parted_pieces (by omega) fun line member => Nat.lt_succ_of_le (short line member)
  have alone : ¬ username <:+: [newline] := by
    intro inside
    obtain ⟨b, rest, rfl⟩ := List.exists_cons_of_ne_nil word.1
    have same : b = newline := by simpa using inside.subset List.mem_cons_self
    have visible := word.2 b List.mem_cons_self
    rw [same] at visible
    exact absurd visible (by decide)
  rw [kept_of_clean clean, words_parted (parted.filter (by simpa using alone))]
  intro w member
  obtain ⟨piece, chosen, inside⟩ := List.mem_flatMap.mp member
  obtain ⟨cut, free⟩ := List.mem_filter.mp chosen
  have here := infix_of_mem_words inside
  refine ⟨here.length_le.trans ((chunked_pieces 256 (by omega) text).isPiece piece cut).short, ?_⟩
  rintro rfl
  simp [here] at free

theorem word_of_firstField {line : Bytes}
    (word : username ≠ [] ∧ ∀ b ∈ username, isSpace b = false)
    (member : line ∈ lines text) (field : firstField line = username) :
    username ∈ words text := by
  rw [words_lines, List.mem_flatMap]
  refine ⟨line, member, ?_⟩
  have split : firstField line ++ line.dropWhile (fun b => b ≠ space ∧ b ≠ newline) = line :=
    List.takeWhile_append_dropWhile
  rw [field] at split
  rw [← split]
  cases rest : line.dropWhile fun b => b ≠ space ∧ b ≠ newline with
  | nil =>
      rw [List.append_nil, words_single word.1 word.2]
      exact List.mem_singleton_self _
  | cons b more =>
      have stops := List.head?_dropWhile_not (fun b => decide (b ≠ space ∧ b ≠ newline)) line
      rw [rest] at stops
      have gap : isSpace b = true := by
        by_cases blank : b = space
        · rw [blank]
          decide
        · have ends : b = newline := by simpa [blank] using stops
          rw [ends]
          decide
      rw [words_append_cons _ _ gap, words_single word.1 word.2]
      exact List.mem_append_left _ (List.mem_singleton_self _)

/-- Once a registered user has disconnected there is no entry of that name, and
the user can connect again. -/
theorem reconnects {s s' : Sys} (calm : s.faults = []) {reply : Bytes} {p : Path}
    (registered : s.tree.find (folderOf username) = some (p, .dir))
    (here : table s.tree = some text) (clean : (0 : UInt8) ∉ text)
    (short : ∀ line ∈ lines text, (body line).length ≤ 255)
    (word : username ≠ [] ∧ ∀ b ∈ username, isSpace b = false)
    (ran : (disconnectServ username).run s = .ok reply s') :
    ¬ Listed s'.tree username ∧ ∀ freePort freeServer, ∃ s'',
      (connectServ username freePort freeServer).run s' = .ok (ascii "0") s'' := by
  obtain ⟨fits, tempFree, -, calm', swapped⟩ :=
    disconnect_swapped calm (access_of_find registered) here ran
  have now : table s'.tree = some (kept username text) :=
    table_of_node_file swapped.cwd swapped.tableKept
  have left := words_kept clean short word
  have clean' : (0 : UInt8) ∉ kept username text := fun member => clean (mem_kept member)
  constructor
  · rintro ⟨later, same, line, member, field⟩
    rw [now] at same
    cases same
    exact (left _ (word_of_firstField word member field)).2 rfl
  · intro freePort freeServer
    have registered' := access_of_find ((swapped.sameDirs here tempFree).find_dir registered)
    obtain ⟨s₁, -, handles, again⟩ := run_connectServ_table registered' now freePort freeServer
    have fit : WordsFit 256 username (words (kept username text)) := by
      rintro before w prefixes -
      have member := prefixes.subset (List.mem_append_right before (List.mem_singleton_self w))
      exact Nat.lt_succ_of_le (left w member).1
    have fresh : username ∉ words (kept username text) := fun member => (left _ member).2 rfl
    rw [if_neg (not_le.mpr fits), if_neg (by rw [Sys.fails, calm']; decide),
      scanWords_of_fit clean' fit, decide_eq_false fresh] at again
    exact ⟨_, again⟩

end Leaving

theorem reconnects_ana :
    ∃ reply s', (disconnectServ (ascii "ana")).run ⟨treeAfter firstStart anaBetween, [], []⟩ =
        .ok reply s' ∧ ¬ Listed s'.tree (ascii "ana") ∧
      ∀ freePort freeServer, ∃ s'',
        (connectServ (ascii "ana") freePort freeServer).run s' = .ok (ascii "0") s'' := by
  have gone : resOf ((serve (.disconnect (ascii "ana"))).run
      ⟨treeAfter firstStart anaBetween, [], []⟩) = some (ascii "0") := by decide +kernel
  have registered : (treeAfter firstStart anaBetween).find (folderOf (ascii "ana")) =
      some ([ascii "usuarios", ascii "ana"], .dir) := by decide +kernel
  have here := table_anaBetween
  -- From here on the tree is not looked into.
  generalize treeAfter firstStart anaBetween = t at gone registered here ⊢
  cases ran : (disconnectServ (ascii "ana")).run ⟨t, [], []⟩ with
  | ok reply s' =>
      exact ⟨reply, s', rfl, reconnects rfl registered here (by decide +kernel)
        (by decide +kernel) (by decide +kernel) ran⟩
  | error e s' =>
      rw [serve, run_answer_error ran] at gone
      cases gone

/-- A table that the server cannot have written: a NUL hides the end of a line. -/
def tableWithNul : FileTree :=
  (treeAfter firstStart [.register (ascii "ana")]).put
    (tablePath (treeAfter firstStart [.register (ascii "ana")]))
    (.file (ascii "a\x00\nna 10.0.0.1 4001 \n"))

/-- DISCONNECT leaves out the NUL and what follows it, so that two lines become
an entry of the user. -/
theorem disconnect_joins_lines :
    ¬ ∀ (s s' : Sys) (username text reply : Bytes) (p : Path), s.faults = [] →
      s.tree.find (folderOf username) = some (p, .dir) → table s.tree = some text →
      (∀ line ∈ lines text, (body line).length ≤ 255) →
      (username ≠ [] ∧ ∀ b ∈ username, isSpace b = false) →
      (disconnectServ username).run s = .ok reply s' → reply = ascii "0" ∨ reply = ascii "2" →
      ¬ Listed s'.tree username := by
  intro never
  have replied : (match (disconnectServ (ascii "ana")).run ⟨tableWithNul, [], []⟩ with
      | .ok reply s' => some (reply, table s'.tree)
      | .error _ _ => none) = some (ascii "2", some (ascii "ana 10.0.0.1 4001 \n")) := by decide +kernel
  cases ran : (disconnectServ (ascii "ana")).run ⟨tableWithNul, [], []⟩ with
  | ok reply s' =>
      rw [ran] at replied
      obtain ⟨rfl, now⟩ := Prod.mk.inj (Option.some.inj replied)
      refine never ⟨tableWithNul, [], []⟩ s' (ascii "ana") (ascii "a\x00\nna 10.0.0.1 4001 \n") _
        [ascii "usuarios", ascii "ana"] rfl (by decide +kernel) (by decide +kernel)
        (by decide +kernel) (by decide +kernel) ran (Or.inr rfl) ⟨_, now, ?_⟩
      decide
  | error e s' =>
      rw [ran] at replied
      cases replied

end DistrApp.Server
