import DistrApp.Client.GetFile

/-!
# The loops of a transfer

The thread sends a file in chunks and waits for an acknowledgement after each;
`getfile` reads until a read is the end marker.  A chunk that is the marker ends
`getfile` before the thread.
-/

set_option autoImplicit false

namespace DistrApp.Client

open Text Streams Effects

/-! ## Chunks -/

theorem chunksFuel_enough (fuel : Nat) :
    ∀ content : Bytes, content.length ≤ fuel → chunksFuel fuel content = chunks content := by
  have agree : ∀ (fuel fuel' : Nat) (content : Bytes), content.length ≤ fuel →
      content.length ≤ fuel' → chunksFuel fuel content = chunksFuel fuel' content := by
    intro fuel
    induction fuel with
    | zero =>
        intro fuel' content short _
        obtain rfl := List.eq_nil_of_length_eq_zero (Nat.le_zero.mp short)
        cases fuel' <;> rfl
    | succ fuel ih =>
        intro fuel' content short short'
        by_cases empty : content = []
        · subst empty
          cases fuel' <;> rfl
        · have positive := List.length_pos_of_ne_nil empty
          obtain ⟨fuel', rfl⟩ : ∃ m, fuel' = m + 1 := ⟨fuel' - 1, by omega⟩
          rw [chunksFuel, chunksFuel, if_neg empty, if_neg empty,
            ih fuel' _ (by rw [List.length_drop]; omega) (by rw [List.length_drop]; omega)]
  exact fun content short => agree fuel _ content short le_rfl

theorem chunks_cons {content : Bytes} (some_bytes : content ≠ []) :
    chunks content = content.take 256 :: chunks (content.drop 256) := by
  have positive := List.length_pos_of_ne_nil some_bytes
  obtain ⟨fuel, enough⟩ : ∃ m, content.length = m + 1 := ⟨content.length - 1, by omega⟩
  rw [chunks, enough, chunksFuel, if_neg some_bytes, chunksFuel_enough]
  rw [List.length_drop]
  omega

theorem chunks_induction {P : Bytes → Prop} (empty : P [])
    (more : ∀ content, content ≠ [] → P (content.drop 256) → P content) (content : Bytes) :
    P content := by
  have whole : ∀ (size : Nat) (content : Bytes), content.length ≤ size → P content := by
    intro size
    induction size with
    | zero =>
        intro content short
        obtain rfl := List.eq_nil_of_length_eq_zero (Nat.le_zero.mp short)
        exact empty
    | succ size ih =>
        intro content short
        by_cases none_left : content = []
        · rw [none_left]
          exact empty
        · have positive := List.length_pos_of_ne_nil none_left
          exact more content none_left (ih _ (by rw [List.length_drop]; omega))
  exact whole _ content le_rfl

theorem chunk_size (content : Bytes) :
    ∀ chunk ∈ chunks content, chunk ≠ [] ∧ chunk.length ≤ 256 := by
  induction content using chunks_induction with
  | empty => exact fun chunk member => by cases member
  | more content some_bytes ih =>
      intro chunk member
      rw [chunks_cons some_bytes] at member
      rcases List.mem_cons.mp member with rfl | later
      · refine ⟨?_, List.length_take_le _ _⟩
        rw [ne_eq, List.take_eq_nil_iff]
        simp [some_bytes]
      · exact ih chunk later

theorem marker_chunk_iff (content : Bytes) :
    finArchivo ∈ chunks content ↔ content.length % 256 = 11 ∧ finArchivo <:+ content := by
  have size : finArchivo.length = 11 := by decide
  induction content using chunks_induction with
  | empty =>
      refine iff_of_false (by simp [chunks, chunksFuel]) ?_
      rintro ⟨remainder, -⟩
      cases remainder
  | more content some_bytes ih =>
      replace ih : finArchivo ∈ chunks (content.drop 256) ↔
        (content.drop 256).length % 256 = 11 ∧ finArchivo <:+ content.drop 256 := ih
      rw [chunks_cons some_bytes, List.mem_cons, ih, List.length_drop]
      by_cases long : 256 ≤ content.length
      · have first : finArchivo ≠ content.take 256 := by
          intro same
          have lengths := congrArg List.length same
          rw [size, List.length_take] at lengths
          omega
        rw [or_iff_right first]
        constructor
        · rintro ⟨remainder, ends⟩
          exact ⟨by omega, ends.trans (List.drop_suffix _ _)⟩
        · rintro ⟨remainder, ends⟩
          refine ⟨by omega, List.suffix_of_suffix_length_le ends (List.drop_suffix _ _) ?_⟩
          rw [size, List.length_drop]
          omega
      · rw [List.take_of_length_le (by omega), List.drop_eq_nil_of_le (by omega)]
        constructor
        · rintro (rfl | ⟨-, ends⟩)
          · exact ⟨by rw [size], List.suffix_refl _⟩
          · exact absurd (List.eq_nil_of_suffix_nil ends) (by decide)
        · rintro ⟨remainder, ends⟩
          refine Or.inl (ends.eq_of_length ?_)
          rw [size]
          omega

/-! ## Runs of the two loops -/

def transferOf (fileChunks : List Bytes) : Link GetFile Prog :=
  ⟨Side.start (.receiving []), Side.start (sendChunks fileChunks)⟩

def transfer (content : Bytes) : Link GetFile Prog := transferOf (chunks content)

/-- Once the reply is received whole, both sides are at the start of their loops. -/
theorem reply_begins_transfer {disk : Disk} {fileDirectory message fileName content : Bytes}
    (readable : decodes message = true) (asks : (ascii "GET_FILE").isPrefixOf message = true)
    (named : remoteFileName message = some fileName)
    (there : disk.Has (pathOf fileDirectory fileName) content) :
    answerTo disk fileDirectory message = .send (ascii "0\x00") (transfer content).far.state ∧
      GetFile.received .awaiting (ascii "0\x00") = (transfer content).near.state := by
  constructor
  · rw [answerTo, if_neg (by simp [readable]), if_pos asks, named]
    simp only [there.1, if_true, sendFile, there.2]
    rfl
  · have looping : GetFile.received .awaiting (ascii "0\x00") = .receiving [] := by decide +kernel
    exact looping

/-- No call fails, and each `recv` of `getfile` takes one message of the peer whole. -/
def Whole (x : Link GetFile Prog) : Act → Prop
  | .near (.reads n) => x.near.got ++ [x.near.unread.take n] <+: x.far.put
  | .near (.raises _) => False
  | .far (.raises _) => False
  | _ => True

def WholeStep (x : Link GetFile Prog) (act : Act) (y : Link GetFile Prog) : Prop :=
  Step GetFile.program Prog.program x act y ∧ Whole x act

def okMessage : Bytes := encode "OK\x00"

inductive Peer (fileChunks : List Bytes) (messages reads : Nat) : Prog → Prop
  | sends (inside : messages ≤ fileChunks.length) (answered : reads = messages) :
      Peer fileChunks messages reads (sendChunks (fileChunks.drop messages))
  | waits (inside : messages ≤ fileChunks.length) (answered : reads + 1 = messages) :
      Peer fileChunks messages reads
        (.recv 256 fun _comprobacion => sendChunks (fileChunks.drop messages))
  | ended (all : messages = fileChunks.length + 1) (answered : reads = fileChunks.length) :
      Peer fileChunks messages reads .done

/-- What `getfile` has made of its reads, and how many it has acknowledged. -/
inductive Downloader (got put : List Bytes) : GetFile → Prop
  | receives (free : finArchivo ∉ got) (answered : put = List.replicate got.length okMessage) :
      Downloader got put (.receiving got.flatten)
  | acknowledges (free : finArchivo ∉ got)
      (answered : put ++ [okMessage] = List.replicate got.length okMessage) :
      Downloader got put (.acknowledging got.flatten)
  | ended {before : List Bytes} (marked : got = before ++ [finArchivo]) (free : finArchivo ∉ before)
      (answered : put = List.replicate before.length okMessage) :
      Downloader got put (.ok before.flatten)

structure Transferring (fileChunks : List Bytes) (x : Link GetFile Prog) : Prop where
  conserved : Conserved x
  sent : x.far.put <+: fileChunks ++ [finArchivo]
  read : x.near.got <+: x.far.put
  peer : Peer fileChunks x.far.put.length x.far.got.length x.far.state
  near : Downloader x.near.got x.near.put x.near.state
  slow : x.far.got.flatten.length ≤ 3 * x.far.got.length

theorem transferring_start (fileChunks : List Bytes) :
    Transferring fileChunks (transferOf fileChunks) where
  conserved := conserved_start _ _
  sent := List.nil_prefix
  read := List.nil_prefix
  peer := Peer.sends (Nat.zero_le _) rfl
  near := Downloader.receives (fun member => by cases member) rfl
  slow := le_rfl

section Transferring
variable {fileChunks : List Bytes} {x y : Link GetFile Prog} {act : Act}

theorem Downloader.length_le {got put : List Bytes} {state : GetFile}
    (downloader : Downloader got put state) :
    put.length ≤ got.length ∧ put = List.replicate put.length okMessage := by
  cases downloader with
  | receives free answered => exact ⟨by rw [answered]; simp, by rw [answered]; simp⟩
  | acknowledges free answered =>
      have lengths := congrArg List.length answered
      rw [List.length_append, List.length_replicate, List.length_singleton] at lengths
      refine ⟨by omega, List.eq_replicate_iff.mpr ⟨rfl, fun message member => ?_⟩⟩
      exact (List.eq_replicate_iff.mp answered).2 message (List.mem_append_left _ member)
  | ended marked free answered => exact ⟨by rw [answered, marked]; simp, by rw [answered]; simp⟩

/-- What `getfile` has written are whole acknowledgements, at most one a read. -/
theorem Transferring.acknowledged (transferring : Transferring fileChunks x) :
    x.near.put.flatten.length = 3 * x.near.put.length ∧ x.near.put.length ≤ x.near.got.length ∧
      x.near.got.length ≤ x.far.put.length := by
  obtain ⟨few, same⟩ := transferring.near.length_le
  refine ⟨?_, few, transferring.read.length_le⟩
  rw [same, List.length_flatten, List.map_replicate, List.sum_replicate, List.length_replicate,
    show okMessage.length = 3 by decide, smul_eq_mul, mul_comm]

theorem Peer.read {messages reads : Nat} {state : Prog} {call : Call}
    (peer : Peer fileChunks messages reads state) (here : state.call = some call)
    (reading : ∀ message, call ≠ .send message) (bytes : Bytes) :
    messages = reads + 1 ∧ Peer fileChunks messages (reads + 1) (state.received bytes) := by
  cases peer with
  | sends inside answered =>
      cases left : fileChunks.drop messages with
      | nil =>
          rw [left] at here
          cases here
          exact absurd rfl (reading _)
      | cons fileChunk rest =>
          rw [left] at here
          cases here
          exact absurd rfl (reading _)
  | waits inside answered => exact ⟨answered.symm, Peer.sends inside answered⟩
  | ended all answered => cases here

theorem Peer.send {messages reads : Nat} {state : Prog} {message : Bytes}
    (peer : Peer fileChunks messages reads state) (here : state.call = some (.send message)) :
    (fileChunks ++ [finArchivo])[messages]? = some message ∧
      Peer fileChunks (messages + 1) reads state.sent := by
  cases peer with
  | sends inside answered =>
      cases left : fileChunks.drop messages with
      | nil =>
          rw [left] at here
          cases here
          have last : messages = fileChunks.length := by
            have past := List.drop_eq_nil_iff.mp left
            omega
          rw [last, List.getElem?_concat_length]
          exact ⟨rfl, Peer.ended rfl (by omega)⟩
      | cons fileChunk rest =>
          rw [left] at here
          cases here
          have shorter : messages < fileChunks.length := by
            by_contra beyond
            rw [List.drop_eq_nil_of_le (by omega)] at left
            cases left
          rw [List.drop_eq_getElem_cons shorter] at left
          obtain ⟨same, rfl⟩ := List.cons.inj left
          rw [List.getElem?_append_left shorter, List.getElem?_eq_getElem shorter, same]
          exact ⟨rfl, Peer.waits shorter (by omega)⟩
  | waits inside answered => cases here
  | ended all answered => cases here

theorem Downloader.read {got put : List Bytes} {state : GetFile} {call : Call}
    (downloader : Downloader got put state) (here : state.call = some call)
    (reading : ∀ message, call ≠ .send message) (fileChunk : Bytes) :
    Downloader (got ++ [fileChunk]) put (state.received fileChunk) := by
  cases downloader with
  | receives free answered =>
      rw [GetFile.received]
      split
      · rename_i marker
        exact Downloader.ended (by rw [marker]) free answered
      · rename_i plain
        have same : got.flatten ++ fileChunk = (got ++ [fileChunk]).flatten := by simp
        rw [same]
        refine Downloader.acknowledges ?_ ?_
        · rw [List.mem_append, List.mem_singleton, not_or]
          exact ⟨free, Ne.symm plain⟩
        · rw [answered, List.length_append, List.length_singleton, List.replicate_succ']
  | acknowledges free answered =>
      cases here
      exact absurd rfl (reading _)
  | ended marked free answered => cases here

theorem Downloader.send {got put : List Bytes} {state : GetFile} {message : Bytes}
    (downloader : Downloader got put state) (here : state.call = some (.send message)) :
    message = okMessage ∧ Downloader got (put ++ [message]) state.sent := by
  cases downloader with
  | receives free answered => cases here
  | acknowledges free answered =>
      cases here
      exact ⟨rfl, Downloader.receives free answered⟩
  | ended marked free answered => cases here

theorem ne_send_of_takes {call : Call} {unread : Bytes} {n : Nat} (takes : call.Takes unread n)
    (message : Bytes) : call ≠ .send message := by
  rintro rfl
  exact takes

theorem transferring_step (transferring : Transferring fileChunks x) (step : WholeStep x act y) :
    Transferring fileChunks y := by
  obtain ⟨step, whole⟩ := step
  have conserved := conserved_step transferring.conserved step
  obtain ⟨counted, few, behind⟩ := transferring.acknowledged
  obtain ⟨before, sent, read, peer, near, slow⟩ := transferring
  cases step with
  | nearReads here takes =>
      exact ⟨conserved, sent, whole, peer, near.read here (ne_send_of_takes takes) _, slow⟩
  | nearSends here =>
      obtain ⟨rfl, later⟩ := near.send here
      exact ⟨conserved, sent, read, peer, later, slow⟩
  | @farReads call n here takes =>
      obtain ⟨messages, later⟩ := peer.read here (ne_send_of_takes takes) (x.far.unread.take n)
      refine ⟨conserved, sent, read, ?_, near, ?_⟩
      · simpa [Side.reads, Prog.program] using later
      · have arrived := congrArg List.length conserved.toFar
        simp only [Side.reads, List.length_append, List.flatten_append, List.length_singleton] at arrived ⊢
        omega
  | @farSends message here =>
      obtain ⟨next, later⟩ := peer.send here
      refine ⟨conserved, ?_, read.trans (List.prefix_append _ _), ?_, near, slow⟩
      · obtain ⟨rest, all⟩ := sent
        rw [← all, List.getElem?_append_right le_rfl, Nat.sub_self] at next
        cases rest with
        | nil => cases next
        | cons m rest =>
            cases next
            exact ⟨rest, by simpa [Side.sends] using all⟩
      · simpa [Side.sends, Prog.program] using later
  | nearRaises n here => exact whole.elim
  | farRaises n here => exact whole.elim

theorem transferring_run {history : List Act}
    (run : Run WholeStep (transferOf fileChunks) history x) : Transferring fileChunks x :=
  run.invariant (P := fun _ x => Transferring fileChunks x) (transferring_start fileChunks)
    transferring_step

theorem length_history {history : List Act}
    (run : Run WholeStep (transferOf fileChunks) history x) :
    history.length =
      x.near.got.length + x.near.put.length + x.far.got.length + x.far.put.length := by
  refine run.invariant (P := fun history x => history.length =
    x.near.got.length + x.near.put.length + x.far.got.length + x.far.put.length) rfl ?_
  rintro past middle label later counted ⟨step, whole⟩
  rw [List.length_append, List.length_singleton]
  cases step with
  | nearReads here takes =>
      simp only [Side.reads, List.length_append, List.length_singleton]
      omega
  | nearSends here =>
      simp only [Side.sends, Side.gains, List.length_append, List.length_singleton]
      omega
  | farReads here takes =>
      simp only [Side.reads, List.length_append, List.length_singleton]
      omega
  | farSends here =>
      simp only [Side.sends, Side.gains, List.length_append, List.length_singleton]
      omega
  | nearRaises n here => exact whole.elim
  | farRaises n here => exact whole.elim

theorem Peer.done_of_all {messages reads : Nat} {state : Prog}
    (peer : Peer fileChunks messages reads state) (all : fileChunks.length < messages) :
    state = .done := by
  cases peer with
  | sends inside answered => omega
  | waits inside answered => omega
  | ended whole answered => rfl

theorem Peer.reads_le {messages reads : Nat} {state : Prog}
    (peer : Peer fileChunks messages reads state) : reads ≤ fileChunks.length := by
  cases peer with
  | sends inside answered => omega
  | waits inside answered => omega
  | ended all answered => omega

theorem history_bounded {history : List Act}
    (run : Run WholeStep (transferOf fileChunks) history x) :
    history.length ≤ 4 * (fileChunks.length + 1) := by
  have transferring := transferring_run run
  obtain ⟨-, few, behind⟩ := transferring.acknowledged
  have sent := transferring.sent.length_le
  rw [List.length_append, List.length_singleton] at sent
  have reads := transferring.peer.reads_le
  rw [length_history run]
  omega

theorem sendChunks_call (fileChunks : List Bytes) :
    ∃ message, (sendChunks fileChunks).call = some (.send message) := by
  cases fileChunks with
  | nil => exact ⟨_, rfl⟩
  | cons fileChunk rest => exact ⟨_, rfl⟩

theorem Peer.calls {messages reads : Nat} {state : Prog}
    (peer : Peer fileChunks messages reads state) :
    (∃ message, state.call = some (.send message)) ∨
      (state.call = some (.recv 256) ∧ reads + 1 = messages) ∨
      (state = .done ∧ messages = fileChunks.length + 1) := by
  cases peer with
  | sends inside answered => exact Or.inl (sendChunks_call _)
  | waits inside answered => exact Or.inr (Or.inl ⟨rfl, answered⟩)
  | ended all answered => exact Or.inr (Or.inr ⟨rfl, all⟩)

theorem read_of_behind (sized : ∀ chunk ∈ fileChunks, chunk ≠ [] ∧ chunk.length ≤ 256)
    (transferring : Transferring fileChunks x) {localFile : Bytes}
    (here : x.near.state = .receiving localFile) (behind : x.near.got.length < x.far.put.length) :
    ∃ n y, WholeStep x (.near (.reads n)) y := by
  obtain ⟨rest, put⟩ := transferring.read
  obtain ⟨message, later, rfl⟩ := List.exists_cons_of_ne_nil (show rest ≠ [] by
    rintro rfl
    rw [← put, List.append_nil] at behind
    omega)
  have unread : x.near.unread = message ++ later.flatten := by
    have all := transferring.conserved.toNear
    rw [← put, List.flatten_append] at all
    exact List.append_cancel_left all
  have size : message ≠ [] ∧ message.length ≤ 256 := by
    have member : message ∈ fileChunks ++ [finArchivo] :=
      transferring.sent.subset (by rw [← put]; simp)
    rcases List.mem_append.mp member with chunk | marker
    · exact sized message chunk
    · rw [List.mem_singleton.mp marker]
      decide
  have positive := List.length_pos_of_ne_nil size.1
  have takes : (Call.recv 256).Takes x.near.unread message.length := by
    refine ⟨positive, size.2, ?_⟩
    rw [unread, List.length_append]
    omega
  have whole : x.near.got ++ [x.near.unread.take message.length] <+: x.far.put := by
    rw [unread, List.take_left, ← put]
    exact ⟨later, by simp⟩
  exact ⟨_, _, Step.nearReads (by rw [here]; rfl) takes, whole⟩

theorem Transferring.answered (transferring : Transferring fileChunks x)
    (all : x.near.put.length = x.far.put.length)
    (waits : x.far.got.length + 1 = x.far.put.length) : x.far.unread ≠ [] := by
  intro silent
  obtain ⟨counted, -, -⟩ := transferring.acknowledged
  have slow := transferring.slow
  have arrived := congrArg List.length transferring.conserved.toFar
  rw [silent, List.append_nil] at arrived
  omega

theorem ended_of_stuck (sized : ∀ chunk ∈ fileChunks, chunk ≠ [] ∧ chunk.length ≤ 256)
    (transferring : Transferring fileChunks x) (stuck : Stuck WholeStep x) :
    ∃ before, x.near.got = before ++ [finArchivo] ∧ finArchivo ∉ before ∧
      x.near.state = .ok before.flatten ∧
      x.near.put = List.replicate before.length okMessage := by
  have near := transferring.near
  have read := transferring.read
  cases state : x.near.state with
  | receiving localFile =>
      rw [state] at near
      cases near with
      | receives free answered =>
          have few := read.length_le
          have caughtUp : x.near.got.length = x.far.put.length := by
            by_contra behind
            obtain ⟨n, y, step⟩ := read_of_behind sized transferring state (by omega)
            exact stuck _ _ step
          have acknowledged : x.near.put.length = x.far.put.length := by
            rw [answered, List.length_replicate, caughtUp]
          rcases transferring.peer.calls with ⟨message, here⟩ | ⟨here, waits⟩ | ⟨-, all⟩
          · exact absurd ⟨Step.farSends here, trivial⟩ (stuck (.far .sends) _)
          · have coming := List.length_pos_of_ne_nil (transferring.answered acknowledged waits)
            have takes : (Call.recv 256).Takes x.far.unread 1 := ⟨le_rfl, by decide, coming⟩
            exact absurd ⟨Step.farReads here takes, trivial⟩ (stuck (.far (.reads 1)) _)
          · have sent := transferring.sent.eq_of_length (by rw [all]; simp)
            rw [read.eq_of_length caughtUp, sent] at free
            exact absurd (List.mem_append_right _ (List.mem_singleton_self _)) free
  | acknowledging localFile =>
      have here : x.near.state.call = some (.send okMessage) := by rw [state]; rfl
      exact absurd ⟨Step.nearSends here, trivial⟩ (stuck (.near .sends) _)
  | ok localFile =>
      rw [state] at near
      cases near with
      | ended marked free answered => exact ⟨_, marked, free, rfl, answered⟩
  | sending _ _ | awaiting | notFound | fail | raised =>
      rw [state] at near
      cases near

/-- What `getfile` has read up to the marker are all the chunks, unless one of
them is the marker. -/
theorem chunks_of_reads {before : List Bytes}
    (read : before ++ [finArchivo] <+: fileChunks ++ [finArchivo]) :
    before = fileChunks ∨ ∃ rest, fileChunks = before ++ finArchivo :: rest := by
  obtain ⟨rest, same⟩ := read
  rcases List.append_eq_append_iff.mp same with ⟨more, whole, -⟩ | ⟨last, whole, ends⟩
  · exact Or.inr ⟨more, by rw [whole]; simp⟩
  · cases last with
    | nil =>
        rw [List.append_nil] at whole
        exact Or.inr ⟨[], whole.symm⟩
    | cons message last =>
        obtain ⟨rfl, nothing⟩ := List.cons.inj ends
        rw [(List.append_eq_nil_iff.mp nothing.symm).1] at whole
        exact Or.inl (List.append_inj_left' whole rfl)

end Transferring

/-- Every run of the two loops ends; then both are at their end, the local file is
the remote one, and each chunk has been acknowledged once. -/
def DecodesExactly (content : Bytes) : Prop :=
  ∀ history x, Run WholeStep (transfer content) history x →
    history.length ≤ 4 * ((chunks content).length + 1) ∧
    (∀ localFile, x.near.state = .ok localFile → localFile = content) ∧
    (Stuck WholeStep x → x.near.state = .ok content ∧ x.far.state = .done ∧
      x.near.put = List.replicate (chunks content).length okMessage)

/-- The transfer is exact if and only if the file does not end with a chunk that is
the marker. -/
theorem transfer_exact_iff (content : Bytes) :
    DecodesExactly content ↔ ¬ (content.length % 256 = 11 ∧ finArchivo <:+ content) := by
  rw [← marker_chunk_iff]
  have sized := chunk_size content
  constructor
  · intro exact marker
    obtain ⟨history, x, run, stuck⟩ := exists_stuck fun history x run => (exact history x run).1
    have transferring := transferring_run run
    obtain ⟨before, got, free, ended, -⟩ := ended_of_stuck sized transferring stuck
    have read := transferring.read.trans transferring.sent
    rw [got] at read
    have same := (exact history x run).2.1 _ ended
    rcases chunks_of_reads read with all | ⟨rest, split⟩
    · exact free (all ▸ marker)
    · have lengths := congrArg List.length (chunks_flatten content)
      rw [split, ← same] at lengths
      simp only [List.flatten_append, List.flatten_cons, List.length_append] at lengths
      have some_bytes : 0 < finArchivo.length := by decide
      omega
  · intro plain history x run
    have transferring := transferring_run run
    have read := transferring.read.trans transferring.sent
    have same : ∀ before, x.near.got = before ++ [finArchivo] → before = chunks content := by
      intro before got
      rw [got] at read
      rcases chunks_of_reads read with all | ⟨rest, split⟩
      · exact all
      · exact absurd (by rw [split]; simp) plain
    refine ⟨history_bounded run, fun localFile ended => ?_, fun stuck => ?_⟩
    · have near := transferring.near
      rw [ended] at near
      cases near with
      | ended marked free answered => rw [same _ marked, chunks_flatten]
    · obtain ⟨before, got, -, ended, answered⟩ := ended_of_stuck sized transferring stuck
      obtain rfl := same before got
      rw [chunks_flatten] at ended
      have behind := transferring.read.length_le
      rw [got, List.length_append, List.length_singleton] at behind
      exact ⟨ended, transferring.peer.done_of_all behind, answered⟩

/-- The file is the marker: `getfile` ends before the thread, with an empty file. -/
theorem marker_file_lost : ¬ ∀ content, DecodesExactly content := by
  intro always
  have one : chunks finArchivo = [finArchivo] := by decide
  have takes : (Call.recv 256).Takes finArchivo 11 := ⟨by decide, by decide, by decide⟩
  obtain ⟨x, run, printed⟩ : ∃ x, Run WholeStep (transfer finArchivo)
      [.far .sends, .near (.reads 11)] x ∧ x.near.state = .ok [] := by
    rw [transfer, one]
    exact ⟨_, Run.cons ⟨Step.farSends rfl, trivial⟩
      (Run.cons ⟨Step.nearReads rfl takes, List.prefix_refl _⟩ Run.start), by decide⟩
  exact absurd ((always finArchivo _ x run).2.1 [] printed) (by decide)

/-! ## A peer that closes the connection -/

namespace GetFile

/-- The first calls of `getfile` when its sends succeed and its `recv` calls
return these bytes, and nothing for ever after them. -/
def drive : Nat → List Bytes → GetFile → GetFile
  | 0, _, state => state
  | n + 1, reads, state =>
      match state.call with
      | none => state
      | some (.send _) => drive n reads state.sent
      | some _ => drive n reads.tail (state.received (reads.headD []))

def Enters (respuesta : Bytes) : Prop := decodes respuesta = true ∧ respuesta.head? = some 48

instance : DecidablePred Enters := fun respuesta =>
  inferInstanceAs (Decidable (decodes respuesta = true ∧ respuesta.head? = some 48))

/-- `getfile` comes to its end, and says OK only after a `recv` of its loop has
returned the marker. -/
def Terminates (user remoteFileName : String) (reads : List Bytes) : Prop :=
  (∃ n, (drive n reads (start user remoteFileName)).call = none) ∧
    ∀ n localFile, drive n reads (start user remoteFileName) = ok localFile →
      finArchivo ∈ reads.tail

theorem drive_ended {state : GetFile} (ended : state.call = none) (n : Nat) (reads : List Bytes) :
    drive n reads state = state := by
  cases n with
  | zero => rfl
  | succ n => rw [drive, ended]

theorem drive_sending (rest : List Bytes) :
    ∀ (message : Bytes) (n : Nat) (reads : List Bytes),
      drive (n + (rest.length + 1)) reads (sending message rest) = drive n reads awaiting := by
  induction rest with
  | nil => exact fun message n reads => rfl
  | cons next rest ih => exact fun message n reads => ih next n reads

theorem drive_unmarked (n : Nat) : ∀ {reads : List Bytes}, finArchivo ∉ reads →
    ∀ localFile, (∃ later, drive n reads (receiving localFile) = receiving later ∨
        drive n reads (receiving localFile) = acknowledging later) ∧
      ∃ later, drive n reads (acknowledging localFile) = receiving later ∨
        drive n reads (acknowledging localFile) = acknowledging later := by
  induction n with
  | zero => exact fun _ localFile => ⟨⟨localFile, Or.inl rfl⟩, localFile, Or.inr rfl⟩
  | succ n ih =>
      intro reads free localFile
      have other : reads.headD [] ≠ finArchivo := by
        cases reads with
        | nil => exact fun same => absurd same (by decide)
        | cons read reads => exact fun same => free (same ▸ List.mem_cons_self)
      have later : finArchivo ∉ reads.tail := fun member => free (List.mem_of_mem_tail member)
      refine ⟨?_, (ih free localFile).1⟩
      have next : drive (n + 1) reads (receiving localFile) =
          drive n reads.tail (acknowledging (localFile ++ reads.headD [])) := by
        show drive n reads.tail (received (receiving localFile) (reads.headD [])) = _
        rw [received, if_neg other]
      rw [next]
      exact (ih later _).2

theorem drive_marked {reads : List Bytes} (marked : finArchivo ∈ reads) :
    ∀ localFile, ∃ n, (drive n reads (receiving localFile)).call = none := by
  induction reads with
  | nil => cases marked
  | cons read reads ih =>
      intro localFile
      by_cases here : read = finArchivo
      · refine ⟨1, ?_⟩
        show (received (receiving localFile) read).call = none
        rw [received, if_pos here]
        rfl
      · obtain ⟨n, ended⟩ := ih ((List.mem_cons.mp marked).resolve_left (Ne.symm here))
          (localFile ++ read)
        refine ⟨n + 2, ?_⟩
        show (drive (n + 1) reads (received (receiving localFile) read)).call = none
        rw [received, if_neg here]
        exact ended

theorem received_awaiting_of_enters {respuesta : Bytes} (enters : Enters respuesta) :
    received awaiting respuesta = receiving [] := by
  rw [received, if_neg (by simp [enters.1]), enters.2]
  rfl

theorem ended_of_refused {respuesta : Bytes} (refused : ¬ Enters respuesta) :
    (received awaiting respuesta).call = none ∧
      ∀ localFile, received awaiting respuesta ≠ ok localFile := by
  rw [received]
  by_cases readable : decodes respuesta = true
  · rw [if_neg (by simp [readable])]
    cases first : respuesta.head? with
    | none => exact ⟨rfl, fun _ same => by cases same⟩
    | some digit =>
        simp only
        have other : digit ≠ 48 := fun same => refused ⟨readable, by rw [first, same]⟩
        rw [if_neg other]
        split <;> exact ⟨rfl, fun _ same => by cases same⟩
  · rw [if_pos (by simpa using readable)]
    exact ⟨rfl, fun _ same => by cases same⟩

theorem drive_start (user remoteFileName : String) (n : Nat) (reads : List Bytes) :
    drive (n + 5) reads (start user remoteFileName) =
      drive n reads.tail (received awaiting (reads.headD [])) :=
  drive_sending (request user remoteFileName) (encode "GET_FILE\x00") (n + 1) reads

theorem drive_request (user remoteFileName : String) {n : Nat} (few : n < 5)
    (reads : List Bytes) : ∃ call, (drive n reads (start user remoteFileName)).call = some call := by
  match n, few with
  | 0, _ | 1, _ | 2, _ | 3, _ | 4, _ => exact ⟨_, rfl⟩

/-- `getfile` comes to its end if and only if its reply does not lead into the loop
or the marker is what a later `recv` returns. -/
theorem terminates_iff (user remoteFileName : String) (reads : List Bytes) :
    Terminates user remoteFileName reads ↔
      ¬ Enters (reads.headD []) ∨ finArchivo ∈ reads.tail := by
  constructor
  · rintro ⟨⟨n, ended⟩, -⟩
    by_contra neither
    obtain ⟨enters, free⟩ := not_or.mp neither
    rcases Nat.lt_or_ge n 5 with few | many
    · obtain ⟨call, going⟩ := drive_request user remoteFileName few reads
      rw [going] at ended
      cases ended
    · obtain ⟨m, rfl⟩ := Nat.exists_eq_add_of_le' many
      rw [drive_start, received_awaiting_of_enters (not_not.mp enters)] at ended
      obtain ⟨later, same | same⟩ := (drive_unmarked m free []).1 <;> rw [same] at ended <;>
        cases ended
  · intro condition
    have opened : ¬ Enters (reads.headD []) ∨
        received awaiting (reads.headD []) = receiving [] ∧ finArchivo ∈ reads.tail := by
      by_cases enters : Enters (reads.headD [])
      · exact Or.inr ⟨received_awaiting_of_enters enters,
          condition.resolve_left (not_not.mpr enters)⟩
      · exact Or.inl enters
    rcases opened with refused | ⟨looping, marked⟩
    · obtain ⟨ended, never⟩ := ended_of_refused refused
      refine ⟨⟨5, by rw [← Nat.zero_add 5, drive_start]; exact ended⟩, fun n localFile printed => ?_⟩
      rcases Nat.lt_or_ge n 5 with few | many
      · obtain ⟨call, going⟩ := drive_request user remoteFileName few reads
        rw [printed] at going
        cases going
      · obtain ⟨m, rfl⟩ := Nat.exists_eq_add_of_le' many
        rw [drive_start, drive_ended ended] at printed
        exact absurd printed (never localFile)
    · obtain ⟨n, ended⟩ := drive_marked marked []
      exact ⟨⟨n + 5, by rw [drive_start, looping]; exact ended⟩, fun _ _ _ => marked⟩

/-- These are what the `recv` calls of a stream may return before its end. -/
def CutOf (stream : Bytes) (reads : List Bytes) : Prop :=
  reads.flatten = stream ∧ ∀ read ∈ reads, read ≠ [] ∧ read.length ≤ 256

/-- A peer that closes the connection after a chunk leaves `getfile` in its loop. -/
theorem closed_peer_never_ends :
    ¬ ∀ (user remoteFileName : String) (stream : Bytes) (reads : List Bytes),
      CutOf stream reads → Terminates user remoteFileName reads := by
  intro always
  have cut : CutOf (ascii "0\x00hi") [ascii "0\x00", ascii "hi"] := ⟨by decide, by decide⟩
  have closed := (terminates_iff "ana" "notes" _).mp (always "ana" "notes" _ _ cut)
  exact absurd closed (by decide)

end GetFile

end DistrApp.Client
