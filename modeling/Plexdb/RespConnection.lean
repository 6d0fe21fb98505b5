import Plexdb.RespPrefix

/-! The read loop of a connection (`connection_handler` in `keyvalue/resp/resp.cppm`): it parses
the received bytes, executes each complete command and reads on when the buffer is incomplete. The
engine is any state machine that says after each statement whether the connection stays open. -/

namespace Plexdb.Resp

open Kv

theorem parseElements_length {n : Nat} {args args' : List Bytes} {p rest : Bytes}
    (h : parseElements n args p = .done args' rest) : rest.length ≤ p.length := by
  induction n generalizing args p with
  | zero =>
      rw [parseElements] at h
      injection h with _ hrest
      rw [hrest]
  | succ n ih =>
      cases p with
      | nil => cases h
      | cons c p =>
          by_cases hc : c = 36
          · subst hc
            rw [parseElements] at h
            cases hline : findCrlf p with
            | none => rw [hline] at h; cases h
            | some found =>
                rw [hline] at h
                dsimp only at h
                cases hdec : parseDecimal found.1 with
                | none => rw [hdec] at h; cases h
                | some bulkLen =>
                    rw [hdec] at h
                    dsimp only at h
                    split_ifs at h
                    have hle := ih h
                    have hp := congrArg List.length (findCrlf_eq_some hline).1
                    simp only [List.length_append, List.length_drop, List.length_cons] at hle hp ⊢
                    omega
          · rw [parseElements] at h
            · cases h
            · rintro q heq
              exact hc (List.cons.inj heq).1

theorem finish_ok {data rest : Bytes} {args : List Bytes} {stmt : Statement} {consumed : Nat}
    (h : finish data rest args = .ok stmt consumed) : consumed = data.length - rest.length := by
  rw [finish] at h
  split at h
  · cases h
  · injection h with _ hconsumed
    exact hconsumed.symm

/-- A reported statement consumed at least one byte, so the loop makes progress. -/
theorem parse_consumed {data : Bytes} {stmt : Statement} {consumed : Nat}
    (h : parse data = .ok stmt consumed) : 0 < consumed ∧ 0 < data.length := by
  cases data with
  | nil => cases h
  | cons c cs =>
      refine ⟨?_, Nat.succ_pos _⟩
      by_cases hc : c = 42
      · subst hc
        rw [parse, parseRespArray, List.tail_cons] at h
        cases hline : findCrlf cs with
        | none => rw [hline] at h; cases h
        | some found =>
            rw [hline] at h
            dsimp only at h
            have hp := congrArg List.length (findCrlf_eq_some hline).1
            cases hdec : parseDecimal found.1 with
            | none => rw [hdec] at h; cases h
            | some count =>
                rw [hdec] at h
                dsimp only at h
                split_ifs at h
                cases hel : parseElements count.toNat [] found.2 with
                | done args rest =>
                    rw [hel] at h
                    have hle := parseElements_length hel
                    rw [finish_ok h]
                    simp only [List.length_append, List.length_cons] at hp ⊢
                    omega
                | incomplete => rw [hel] at h; cases h
                | error => rw [hel] at h; cases h
      · rw [parse_eq_inline (by simp) (by simpa using hc), parseInline] at h
        cases hline : findCrlf (c :: cs) with
        | none => rw [hline] at h; cases h
        | some found =>
            rw [hline] at h
            dsimp only at h
            have hp := congrArg List.length (findCrlf_eq_some hline).1
            split at h
            · cases h
            · rw [finish_ok h]
              simp only [List.length_append, List.length_cons, crlf, List.length_nil] at hp ⊢
              omega

/-! ### The loop -/

inductive Ending where
  | disconnected
  | protocolError
  | closed
  | notImplemented
  deriving DecidableEq, Repr

/-- The statements a connection executed, the engine's state after them, and how it ended. -/
structure Served (σ : Type) where
  executed : List Statement
  state : σ
  ending : Ending
  deriving DecidableEq, Repr

def Served.after {σ : Type} (stmt : Statement) (s : Served σ) : Served σ :=
  { s with executed := stmt :: s.executed }

variable {σ : Type} (execute : σ → Statement → σ × Bool)

/-- `buf` is `read_buf`; `reads` are the byte strings the following TCP reads deliver, after
which reading fails. -/
def connectionHandler (st : σ) (buf : Bytes) (reads : List Bytes) : Served σ :=
  match _h : parse buf with
  | .incomplete =>
      match reads with
      | [] => ⟨[], st, .disconnected⟩
      | r :: reads => connectionHandler st (buf ++ r) reads
  | .error => ⟨[], st, .protocolError⟩
  | .notImplemented => ⟨[], st, .notImplemented⟩
  | .ok stmt consumed =>
      let (st, keepAlive) := execute st stmt
      if keepAlive then (connectionHandler st (buf.drop consumed) reads).after stmt
      else ⟨[stmt], st, .closed⟩
  termination_by (reads.length, buf.length)
  decreasing_by
    · exact Prod.Lex.left _ _ (Nat.lt_succ_self _)
    · have := parse_consumed _h
      refine Prod.Lex.right _ ?_
      rw [List.length_drop]
      omega

/-- The statements one after another, until one closes the connection. -/
def serveAll (st : σ) : List Statement → Served σ
  | [] => ⟨[], st, .disconnected⟩
  | stmt :: stmts =>
      let (st, keepAlive) := execute st stmt
      if keepAlive then (serveAll st stmts).after stmt else ⟨[stmt], st, .closed⟩

theorem connectionHandler_incomplete_nil {buf : Bytes} (st : σ) (h : parse buf = .incomplete) :
    connectionHandler execute st buf [] = ⟨[], st, .disconnected⟩ := by
  rw [connectionHandler.eq_def]
  split <;> simp_all

theorem connectionHandler_incomplete {buf : Bytes} (st : σ) (r : Bytes) (reads : List Bytes)
    (h : parse buf = .incomplete) :
    connectionHandler execute st buf (r :: reads) =
      connectionHandler execute st (buf ++ r) reads := by
  rw [connectionHandler.eq_def]
  split <;> simp_all

theorem connectionHandler_ok {buf : Bytes} {stmt : Statement} {consumed : Nat} (st : σ)
    (reads : List Bytes) (h : parse buf = .ok stmt consumed) :
    connectionHandler execute st buf reads =
      if (execute st stmt).2 then
        (connectionHandler execute (execute st stmt).1 (buf.drop consumed) reads).after stmt
      else ⟨[stmt], (execute st stmt).1, .closed⟩ := by
  rw [connectionHandler.eq_def]
  split <;> simp_all

/-- No point up to which the remaining reads deliver the stream ends right before an element of
the command it falls in. -/
def NoCutAtElement (cmds : List Command) (buf : Bytes) (reads : List Bytes) : Prop :=
  ∀ (k : Nat) (before : List Command) (m : Command) (after : List Command) (p : Bytes),
    cmds = before ++ m :: after →
    buf ++ (reads.take k).flatten = before.flatMap Command.bytes ++ p → ¬ m.CutAtElement p

theorem NoCutAtElement.next_read {cmds : List Command} {buf r : Bytes} {reads : List Bytes}
    (h : NoCutAtElement cmds buf (r :: reads)) : NoCutAtElement cmds (buf ++ r) reads := by
  intro k before m after p hcmds hbuf
  refine h (k + 1) before m after p hcmds ?_
  rw [List.take_succ_cons, List.flatten_cons, ← List.append_assoc]
  exact hbuf

theorem NoCutAtElement.next_command {m : Command} {cmds : List Command} {buf : Bytes}
    {reads : List Bytes} (h : NoCutAtElement (m :: cmds) (m.bytes ++ buf) reads) :
    NoCutAtElement cmds buf reads := by
  intro k before m' after p hcmds hbuf
  refine h k (m :: before) m' after p (by rw [hcmds, List.cons_append]) ?_
  rw [List.append_assoc, hbuf, List.flatMap_cons, List.append_assoc]

/-- The loop over any cut of the stream that spares the element boundaries. The induction is on
the reads, and for one buffer on the commands it still holds. -/
theorem connectionHandler_eq_serveAll {cmds : List Command} {stmts : List Statement}
    (hstmts : List.Forall₂ (fun m stmt => buildFromArgs (Command.args m) = some stmt) cmds stmts)
    (st : σ) (buf : Bytes) (reads : List Bytes)
    (hstream : buf ++ reads.flatten = cmds.flatMap Command.bytes)
    (hcut : NoCutAtElement cmds buf reads) :
    connectionHandler execute st buf reads = serveAll execute st stmts := by
  induction reads generalizing buf cmds stmts st with
  | nil =>
      induction hstmts generalizing buf st with
      | nil =>
          obtain ⟨rfl, -⟩ := List.append_eq_nil_iff.mp hstream
          exact connectionHandler_incomplete_nil execute st rfl
      | @cons m stmt cmds stmts hm _ ih =>
          rw [List.flatten_nil, List.append_nil, List.flatMap_cons] at hstream
          subst hstream
          rw [connectionHandler_ok execute st [] (m.parse_append _ hm), List.drop_left, serveAll]
          split_ifs with hkeep
          · rw [ih _ _ (by simp) hcut.next_command]
            simp [hkeep]
          · simp [hkeep]
  | cons r reads ihr =>
      induction hstmts generalizing buf st with
      | nil =>
          obtain ⟨rfl, hrest⟩ := List.append_eq_nil_iff.mp hstream
          rw [connectionHandler_incomplete execute st r reads rfl]
          exact ihr List.Forall₂.nil st _ (by simpa using hrest) hcut.next_read
      | @cons m stmt cmds stmts hm htail ih =>
          have hpre : buf <+: m.bytes ++ cmds.flatMap Command.bytes := by
            rw [← List.flatMap_cons, ← hstream]
            exact List.prefix_append _ _
          rcases prefix_append_cases hpre with ⟨hin, hne⟩ | ⟨rest, rfl, -⟩
          · have hpart : ¬ m.CutAtElement buf := hcut 0 [] m cmds buf rfl (by simp)
            rw [connectionHandler_incomplete execute st r reads (m.parse_incomplete hin hne hpart)]
            refine ihr (List.Forall₂.cons hm htail) st _ ?_ hcut.next_read
            rw [← hstream, List.flatten_cons, List.append_assoc]
          · rw [List.flatMap_cons, List.append_assoc] at hstream
            rw [connectionHandler_ok execute st _ (m.parse_append _ hm), List.drop_left, serveAll]
            split_ifs with hkeep
            · rw [ih _ _ (List.append_cancel_left hstream) hcut.next_command]
              simp [hkeep]
            · simp [hkeep]

/-! ### Incremental parsing -/

/-- On a connection that sends the commands `cmds`: exactly when a proper prefix of a command is
incomplete and the command is parsed whole whatever follows it; and the statements executed do not
depend on how the stream is cut into reads, as long as no read ends right before an element. -/
theorem parse_incremental_iff {σ : Type} (execute : σ → Statement → σ × Bool) (st : σ)
    (cmds : List Command) (reads : List Bytes)
    (hstream : reads.flatten = cmds.flatMap Command.bytes) :
    (∀ m ∈ cmds, ∀ p s : Bytes, p <+: m.bytes → p ≠ m.bytes →
      ((parse p = .incomplete ∧ ∃ stmt, buildFromArgs m.args = some stmt ∧
          parse (m.bytes ++ s) = .ok stmt m.bytes.length) ↔
        ¬ m.CutAtElement p ∧ usesExpiry m.args = false)) ∧
    (∀ stmts : List Statement,
      List.Forall₂ (fun m stmt => buildFromArgs (Command.args m) = some stmt) cmds stmts →
      NoCutAtElement cmds [] reads →
      connectionHandler execute st [] reads = serveAll execute st stmts) := by
  refine ⟨fun m _ p s hp hne => ⟨?_, ?_⟩, ?_⟩
  · rintro ⟨hinc, stmt, hstmt, -⟩
    refine ⟨fun hcut => ?_, ?_⟩
    · rw [m.parse_cut hcut] at hinc
      cases hinc
    · rw [← Bool.not_eq_true, ← buildFromArgs_eq_none_iff, hstmt]
      exact Option.some_ne_none stmt
  · rintro ⟨hcut, hexpiry⟩
    have hsome : buildFromArgs m.args ≠ none := by
      rw [Ne, buildFromArgs_eq_none_iff, hexpiry]
      exact Bool.false_ne_true
    obtain ⟨stmt, hstmt⟩ := Option.ne_none_iff_exists'.mp hsome
    exact ⟨m.parse_incomplete hp hne hcut, stmt, hstmt, m.parse_append s hstmt⟩
  · intro stmts hstmts hcut
    exact connectionHandler_eq_serveAll execute hstmts st [] reads (by simpa using hstream) hcut

def pingCommand : Command :=
  .array
    { countText := ascii "1"
      elements := [{
        lengthText := ascii "4"
        body := ascii "PING"
        isLength := ⟨by decide, by decide +kernel, by decide⟩
        fits := by decide +kernel }]
      isCount := ⟨by decide, by decide +kernel, by decide⟩
      fits := by decide +kernel }

def pingReads : List Bytes := [ascii "*1\r\n$4", ascii "\r\nPING\r\n"]

theorem pingReads_no_cut : NoCutAtElement [pingCommand] [] pingReads := by
  intro k before m after p hcmds hbuf hcut
  obtain ⟨rfl, rfl, rfl⟩ : before = [] ∧ m = pingCommand ∧ after = [] := by
    cases before with
    | nil => simpa [eq_comm, and_comm] using hcmds
    | cons b before => simp at hcmds
  obtain ⟨j, hj, hp⟩ := hcut
  obtain rfl : j = 0 := by simpa using hj
  rw [hp] at hbuf
  match k with
  | 0 => exact absurd hbuf (by decide +kernel)
  | 1 => exact absurd hbuf (by decide +kernel)
  | k + 2 =>
      have hall : pingReads.take (k + 2) = pingReads := List.take_of_length_le (by simp [pingReads])
      rw [hall] at hbuf
      exact absurd hbuf (by decide +kernel)

theorem pingCommand_prefix_no_cut : ¬ pingCommand.CutAtElement (ascii "*1\r\n$4\r\nPI") := by
  rintro ⟨k, hk, h⟩
  obtain rfl : k = 0 := by simpa using hk
  exact absurd h (by decide +kernel)

theorem parse_incremental_ping :
    (parse (ascii "*1\r\n$4\r\nPI") = .incomplete ∧
      ∃ stmt, buildFromArgs pingCommand.args = some stmt ∧
        parse (pingCommand.bytes ++ ascii "*1") = .ok stmt 14) ∧
    connectionHandler (fun (n : Nat) _ => (n + 1, true)) 0 [] pingReads =
      ⟨[.ping none], 1, .disconnected⟩ :=
  have h := parse_incremental_iff (fun (n : Nat) _ => (n + 1, true)) 0 [pingCommand] pingReads
    (by decide +kernel)
  ⟨(h.1 pingCommand List.mem_cons_self (ascii "*1\r\n$4\r\nPI") (ascii "*1") (by decide +kernel)
      (by decide +kernel)).mpr ⟨pingCommand_prefix_no_cut, by decide +kernel⟩,
    h.2 [.ping none] (List.Forall₂.cons (by decide +kernel) List.Forall₂.nil) pingReads_no_cut⟩

/-- Cut right before its only element, a well-formed command is answered with an error. -/
theorem parse_ping_cut : ascii "*1\r\n" <+: pingCommand.bytes ∧
    ascii "*1\r\n" ≠ pingCommand.bytes ∧ parse (ascii "*1\r\n") = .error := by
  decide +kernel

end Plexdb.Resp
