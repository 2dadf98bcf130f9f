import Eligibility.Proofs.Grammar.Descent
import Eligibility.Proofs.Grammar.Level

/-!
# What the machine accepts

The machine finds the tree of every phrase, and it finds no other trees.

*Completeness* goes along the derivation. The machine reads a phrase from any level that awaits an
operand, whatever waits there and whatever lies below (`run_of_derives`): nothing outside of the
level is read or changed, so the derivation of a group is used for the group's own level. As the
last condition of a phrase stays in the field buffer until the next token asks for it, what is said
about the machine after the phrase is what it *completes* to.

*Soundness* goes along the tokens. `Reads m ts` says what the tokens that led to a state were: for
each open level an expression and a keyword, or nothing, in front of its parenthesis, and then what
the innermost level holds. Every token that is taken keeps it (`Reads.take`), and at the end of the
text it leaves one expression (`Reads.finish`).

Main results: `Rule.ofTokens_eq_ok_iff` for token lists, and `Rule.parse_iff_derives` for texts,
which puts the machine beside the grammar and beside reading by descent.
-/

namespace Eligibility

namespace Machine

variable {limits : Limits}

/-! ### Completeness -/

/-- The run over a token list, from a given state. -/
def run (limits : Limits) (m : Machine) (ts : List Token) : Except ParseError Machine :=
  ts.foldlM (takeToken limits) m

@[simp] theorem run_nil (m : Machine) : run limits m [] = .ok m := rfl

@[simp] theorem run_cons (m : Machine) (t : Token) (ts : List Token) :
    run limits m (t :: ts) = m.takeToken limits t >>= fun m' => run limits m' ts := rfl

@[simp] theorem run_append (m : Machine) (ts us : List Token) :
    run limits m (ts ++ us) = run limits m ts >>= fun m' => run limits m' us :=
  List.foldlM_append

/-- The three fields of a condition are taken one after the other. -/
theorem run_condition {s o v : Token} (hs : s.isField) (ho : o.isField) (hv : v.isField)
    (outer : List Level) (w : Waiting) :
    run limits (awaiting outer w []) [s, o, v] = .ok (awaiting outer w [v, o, s]) := by
  rw [run_cons, takeToken_awaiting_field hs (by simp), ok_bind, run_cons,
    takeToken_awaiting_field ho (by simp), ok_bind, run_cons,
    takeToken_awaiting_field hv (by simp), ok_bind, run_nil]

/-- **The machine reads phrases.** From a level that awaits an operand, the tokens of a phrase lead
to a state that completes to the tree of the phrase, joined to what waits on that level. An
expression is only read where nothing waits. -/
theorem run_of_derives {phrase : Phrase} {ts : List Token} {r : Rule} (h : Derives phrase ts r)
    (outer : List Level) (w : Waiting) (hw : phrase = .expression → w = none)
    (h_deep : deepest outer.length ts ≤ limits.maxDepth) :
    ∃ m, run limits (awaiting outer w []) ts = .ok m ∧
      m.completeCondition = .ok (complete outer (w.join r)) := by
  -- for any levels around and anything that waits, since a group is read with one level more
  -- and nothing waiting, and a right operand with the left side waiting
  induction h generalizing outer w with
  | condition hs ho hv hc =>
    -- the fields stay in the buffer; it is the completion that makes them an operand
    refine ⟨_, run_condition hs ho hv outer w, ?_⟩
    rw [completeCondition_awaiting (by simp)]
    simp only [List.reverse_cons, List.reverse_nil, List.nil_append, List.cons_append, hc, map_ok]
  | @group o c ts r ho hc h ih =>
    rw [deepest_group ho hc h] at h_deep
    have h_le := le_deepest (outer.length + 1) ts
    obtain ⟨m, h_run, h_done⟩ := ih (⟨w, o.offset⟩ :: outer) none (fun _ => rfl) h_deep
    -- the closing parenthesis asks for the completion of the level inside
    refine ⟨complete outer (w.join r), ?_, completeCondition_complete _ _⟩
    rw [run_cons, takeToken_awaiting_opening ho, if_neg (by omega), ok_bind, run_append, h_run,
      ok_bind, run_cons, takeToken_complete_closing hc h_done]
    rfl
  | single _ ih => exact ih outer w (fun h => absurd h (by simp)) h_deep
  | @joined k op ts us left right hl hk _ ihl ihr =>
    obtain rfl : w = none := hw rfl
    rw [deepest_joined hl hk] at h_deep
    obtain ⟨m, h_run, h_done⟩ := ihl outer none (fun _ => rfl) (by omega)
    obtain ⟨m', h_run', h_done'⟩ :=
      ihr outer (some (left, op)) (fun h => absurd h (by simp)) (by omega)
    -- the keyword asks for the completion of the left side, and then `left` and `op` wait
    refine ⟨m', ?_, h_done'⟩
    rw [run_append, h_run, ok_bind, run_cons, takeToken_complete_keyword hk h_done]
    exact h_run'

/-- **Too deep.** A phrase that nests deeper than the limits allow is refused for that. -/
theorem run_of_derives_deep {phrase : Phrase} {ts : List Token} {r : Rule}
    (h : Derives phrase ts r) (outer : List Level) (w : Waiting)
    (hw : phrase = .expression → w = none) (h_outer : outer.length ≤ limits.maxDepth)
    (h_deep : limits.maxDepth < deepest outer.length ts) :
    run limits (awaiting outer w []) ts = .error (.nestingTooDeep limits.maxDepth) := by
  induction h generalizing outer w with
  | condition hs ho hv =>
    rw [deepest_cons_field hs, deepest_cons_field ho, deepest_cons_field hv, deepest_nil] at h_deep
    exact absurd h_outer (Nat.not_le_of_lt h_deep)
  | @group o c ts r ho hc h ih =>
    rw [deepest_group ho hc h] at h_deep
    rw [run_cons, takeToken_awaiting_opening ho]
    -- the opening parenthesis itself is one level too many, or the fault is further inside
    by_cases h_full : limits.maxDepth ≤ outer.length
    · rw [if_pos h_full, error_bind]
    · rw [if_neg h_full, ok_bind, run_append,
        ih (⟨w, o.offset⟩ :: outer) none (fun _ => rfl) (by simp only [List.length_cons]; omega)
          h_deep]
      rfl
  | single _ ih => exact ih outer w (fun h => absurd h (by simp)) h_outer h_deep
  | @joined k op ts us left right hl hk _ ihl ihr =>
    obtain rfl : w = none := hw rfl
    rw [deepest_joined hl hk] at h_deep
    rw [run_append]
    -- the left side is too deep, or it is read and the operand is too deep
    by_cases h_left : deepest outer.length ts ≤ limits.maxDepth
    · obtain ⟨m, h_run, h_done⟩ := run_of_derives hl outer none (fun _ => rfl) h_left
      rw [h_run, ok_bind, run_cons, takeToken_complete_keyword hk h_done, ok_bind]
      exact ihr outer (some (left, op)) (fun h => absurd h (by simp)) h_outer (by omega)
    · rw [ihl outer none (fun _ => rfl) h_outer (by omega)]
      rfl

/-! ### Soundness -/

/-- The tokens of a level in front of the operand that it awaits. -/
inductive Before : Waiting → List Token → Prop
  | nothing : Before none []
  | keyword {ts : List Token} {left : Rule} {k : Token} {op : Connective}
      (h : Derives .expression ts left) (hk : k.keyword? = some op) :
      Before (some (left, op)) (ts ++ [k])

/-- The tokens of the open groups up to the innermost parenthesis. -/
inductive Behind : List Level → List Token → Prop
  | top : Behind [] []
  | group {outer : List Level} {w : Waiting} {o : Token} {ts us : List Token}
      (h : Behind outer ts) (hw : Before w us) (ho : o.lexeme = .opening) :
      Behind (⟨w, o.offset⟩ :: outer) (ts ++ us ++ [o])

/-- **The invariant.** The tokens that have led from the first state to this one. -/
inductive Reads : Machine → List Token → Prop
  | awaiting {outer : List Level} {w : Waiting} {ts us fields : List Token} (h : Behind outer ts)
      (hw : Before w us) (hf : ∀ t ∈ fields, t.isField) :
      Reads (awaiting outer w fields) (ts ++ us ++ fields.reverse)
  | complete {outer : List Level} {r : Rule} {ts us : List Token} (h : Behind outer ts)
      (hr : Derives .expression us r) : Reads (complete outer r) (ts ++ us)

/-- A level that awaits an operand of which no field is there yet. -/
theorem Reads.awaiting_nil {outer : List Level} {w : Waiting} {ts us : List Token}
    (h : Behind outer ts) (hw : Before w us) : Reads (Machine.awaiting outer w []) (ts ++ us) := by
  have h_reads := Reads.awaiting h hw (List.forall_mem_nil fun t : Token => (t.isField : Prop))
  rwa [List.reverse_nil, List.append_nil] at h_reads

theorem Reads.initial : Reads {} [] := Reads.awaiting_nil .top .nothing

/-- An operand continues what stands before it to an expression. -/
theorem Before.join {w : Waiting} {ts us : List Token} {r : Rule} (hw : Before w ts)
    (hr : Derives .operand us r) : Derives .expression (ts ++ us) (w.join r) := by
  cases hw with
  | nothing => exact .single hr
  | keyword h hk =>
    rw [List.append_assoc, List.singleton_append]
    exact .joined h hk hr

/-- Fields that make a condition are an operand. -/
theorem derives_of_readCondition {fields : List Token} {c : Condition}
    (hf : ∀ t ∈ fields, t.isField) (hc : readCondition fields = .ok c) :
    Derives .operand fields (.test c) := by
  unfold readCondition at hc
  split at hc
  · next s o v => exact .condition (hf s (by simp)) (hf o (by simp)) (hf v (by simp)) hc
  · exact absurd hc (by simp)

/-- Finishing a condition takes no token. -/
theorem Reads.completeCondition {m m' : Machine} {ts : List Token} (h : Reads m ts)
    (h_ok : m.completeCondition = .ok m') : Reads m' ts := by
  cases h with
  | complete h hr =>
    obtain rfl := Except.ok.inj h_ok
    exact .complete h hr
  | awaiting h hw hf =>
    rcases completeCondition_cases h_ok with ⟨rfl, rfl⟩ | ⟨c, hc, rfl⟩
    · exact .awaiting h hw hf
    · rw [List.append_assoc]
      exact .complete h
        (hw.join (derives_of_readCondition (fun t ht => hf t (List.mem_reverse.mp ht)) hc))

/-- A state that awaits no operand is a complete level. -/
theorem Reads.exists_complete {m : Machine} {ts : List Token} (h : Reads m ts)
    (h_wait : m.awaitsOperand = false) :
    ∃ outer r us vs, m = Machine.complete outer r ∧ ts = us ++ vs ∧ Behind outer us ∧
      Derives .expression vs r := by
  cases h with
  | awaiting => exact absurd h_wait (by simp [Machine.awaiting])
  | complete h hr => exact ⟨_, _, _, _, rfl, rfl, h, hr⟩

/-- **Every token that is taken keeps the invariant.** -/
theorem Reads.take {m m' : Machine} {t : Token} {ts : List Token} (h : Reads m ts)
    (h_ok : m.takeToken limits t = .ok m') : Reads m' (ts ++ [t]) := by
  -- one case for each handler
  rcases t.kind with h_field | ⟨op, h_key⟩ | h_open | h_close
  · -- one field more
    obtain ⟨h_wait, rfl⟩ := eq_of_takeToken_field h_field h_ok
    cases h with
    | complete => exact absurd h_wait (by simp [Machine.complete])
    | awaiting h hw hf =>
      have h_reads := Reads.awaiting h hw (List.forall_mem_cons.mpr ⟨h_field, hf⟩)
      rw [List.reverse_cons, ← List.append_assoc] at h_reads
      exact h_reads
  · -- the expression of the level now waits behind the keyword
    obtain ⟨m₁, h_done, h_wait, rfl⟩ := exists_of_takeToken_keyword h_key h_ok
    obtain ⟨outer, r, us, vs, rfl, rfl, hb, hr⟩ :=
      (h.completeCondition h_done).exists_complete h_wait
    have h_reads := Reads.awaiting_nil hb (.keyword hr h_key)
    rwa [← List.append_assoc] at h_reads
  · -- the level becomes one of those further out
    obtain ⟨h_fields, h_wait, -, rfl⟩ := eq_of_takeToken_opening h_open h_ok
    cases h with
    | complete => exact absurd h_wait (by simp [Machine.complete])
    | awaiting h hw hf =>
      obtain rfl := h_fields
      have h_reads := Reads.awaiting_nil (.group h hw h_open) .nothing
      rw [List.append_nil] at h_reads
      rw [List.reverse_nil, List.append_nil]
      exact h_reads
  · -- the group is an operand of the level around it
    obtain ⟨m₁, f, frames, h_done, h_wait, h_frames, h_push⟩ :=
      exists_of_takeToken_closing h_close h_ok
    obtain ⟨outer, r, us, vs, rfl, rfl, hb, hr⟩ :=
      (h.completeCondition h_done).exists_complete h_wait
    cases hb with
    | top => exact absurd h_frames (by simp [Machine.complete, framesOf])
    | @group outer w o ts us hb hw ho =>
      obtain rfl : framesOf outer = frames := (List.cons.inj h_frames).2
      have h_joined := completeOperand_push outer w r false t.offset
      obtain rfl := Except.ok.inj (h_joined.symm.trans h_push)
      have h_reads := Reads.complete hb (hw.join (.group ho h_close hr))
      simp only [List.append_assoc, List.cons_append] at h_reads ⊢
      exact h_reads

/-- A run keeps the invariant. -/
theorem Reads.run {m m' : Machine} {ts us : List Token} (h : Reads m ts)
    (h_ok : run limits m us = .ok m') : Reads m' (ts ++ us) := by
  induction us generalizing m ts with
  | nil =>
    obtain rfl := Except.ok.inj h_ok
    rw [List.append_nil]
    exact h
  | cons t us ih =>
    rw [run_cons] at h_ok
    obtain ⟨m₁, h_take, h_ok⟩ := exists_of_bind_eq_ok h_ok
    have h_reads := ih (h.take h_take) h_ok
    rwa [List.append_assoc, List.singleton_append] at h_reads

/-- **At the end of the text** no group is open, so the tokens are one expression. -/
theorem Reads.finish {m : Machine} {ts : List Token} {size : Nat} {r : Rule} (h : Reads m ts)
    (h_ok : m.finish size = .ok r) : Derives .expression ts r := by
  unfold Machine.finish at h_ok
  obtain ⟨m₁, h_done, h_ok⟩ := exists_of_bind_eq_ok h_ok
  have h_reads := h.completeCondition h_done
  cases h_frames : m₁.frames with
  -- an open group at the end is an error, and so is an operand that is missing
  | cons f frames => simp [h_frames] at h_ok
  | nil =>
    cases h_wait : m₁.awaitsOperand with
    | true => simp [h_frames, h_wait] at h_ok
    | false =>
      obtain ⟨outer, r', us, vs, rfl, rfl, hb, hr⟩ := h_reads.exists_complete h_wait
      cases hb with
      | group => exact absurd h_frames (by simp [Machine.complete, framesOf])
      | top =>
        obtain rfl := Except.ok.inj h_ok
        exact hr

/-- The end of a text whose tokens have led to a complete top level. -/
theorem finish_of_complete {m : Machine} {r : Rule}
    (h : m.completeCondition = .ok (complete [] r)) (size : Nat) : m.finish size = .ok r := by
  unfold Machine.finish
  rw [h]
  rfl

/-! ### Nesting -/

theorem frames_of_completeOperand {m m' : Machine} {offset : Nat}
    (h : m.completeOperand offset = .ok m') : m'.frames = m.frames := by
  unfold completeOperand at h
  obtain ⟨_, _, h⟩ := exists_of_bind_eq_ok h
  obtain rfl := Except.ok.inj h
  rfl

theorem frames_of_completeCondition {m m' : Machine} (h : m.completeCondition = .ok m') :
    m'.frames = m.frames := by
  unfold completeCondition at h
  split at h
  · obtain rfl := Except.ok.inj h
    rfl
  · obtain ⟨c, -, h⟩ := exists_of_bind_eq_ok h
    exact (frames_of_completeOperand h).trans rfl

/-- Every open group is a frame, so a run never gets deeper than the limits allow. -/
theorem deepest_le_of_run {m m' : Machine} {ts : List Token} {depth : Nat}
    (h_ok : run limits m ts = .ok m') (h_depth : m.frames.length = depth)
    (h_le : depth ≤ limits.maxDepth) : deepest depth ts ≤ limits.maxDepth := by
  -- on the tokens, with the number of frames as the depth
  induction ts generalizing m depth with
  | nil => exact h_le
  | cons t ts ih =>
    rw [run_cons] at h_ok
    obtain ⟨m₁, h_take, h_ok⟩ := exists_of_bind_eq_ok h_ok
    rcases t.kind with h_field | ⟨op, h_key⟩ | h_open | h_close
    · obtain ⟨-, rfl⟩ := eq_of_takeToken_field h_field h_take
      rw [deepest_cons_field h_field]
      exact ih h_ok h_depth h_le
    · obtain ⟨m₂, h_done, -, rfl⟩ := exists_of_takeToken_keyword h_key h_take
      rw [deepest_cons_keyword h_key]
      exact ih h_ok (frames_of_completeCondition h_done ▸ h_depth) h_le
    · obtain ⟨-, -, h_lt, rfl⟩ := eq_of_takeToken_opening h_open h_take
      rw [deepest_cons_opening h_open]
      exact ih h_ok (congrArg Nat.succ h_depth) (h_depth ▸ h_lt)
    · obtain ⟨m₂, f, frames, h_done, -, h_pop, h_push⟩ :=
        exists_of_takeToken_closing h_close h_take
      -- the closing parenthesis takes a frame away, and the completion before it none
      have h_len : m₁.frames.length + 1 = depth := by
        rw [frames_of_completeOperand h_push, ← h_depth, ← frames_of_completeCondition h_done,
          h_pop]
        rfl
      rw [deepest_cons_closing h_close]
      exact Nat.max_le.mpr ⟨h_le, ih h_ok (by omega) (by omega)⟩

end Machine

/-- **The machine and the grammar agree.** A token list is read as a rule exactly if the grammar
derives the rule from it and its parentheses nest as deep as the limits allow at most. -/
theorem Rule.ofTokens_eq_ok_iff (limits : Limits) (size : Nat) {ts : List Token} {r : Rule} :
    Rule.ofTokens limits size ts = .ok r ↔
      Derives .expression ts r ∧ nesting ts ≤ limits.maxDepth := by
  constructor
  · intro h
    -- a text without tokens is refused before the machine starts
    cases ts with
    | nil => exact absurd h (by simp [Rule.ofTokens])
    | cons t ts =>
      obtain ⟨m, h_run, h_fin⟩ := exists_of_bind_eq_ok h
      exact ⟨(Machine.Reads.initial.run h_run).finish h_fin,
        Machine.deepest_le_of_run h_run rfl (Nat.zero_le _)⟩
  · rintro ⟨h, h_deep⟩
    obtain ⟨m, h_run, h_done⟩ := Machine.run_of_derives h [] none (fun _ => rfl) h_deep
    cases ts with
    | nil => exact absurd rfl h.ne_nil
    | cons t ts =>
      change (Machine.run limits {} (t :: ts) >>= _) = _
      rw [← Machine.awaiting_nil, h_run]
      exact Machine.finish_of_complete h_done size

/-- Two derivations of the same tokens have the same tree. -/
theorem Derives.unique {ts : List Token} {r s : Rule} (hr : Derives .expression ts r)
    (hs : Derives .expression ts s) : r = s := by
  have h_deep := Nat.le_refl (nesting ts)
  have h_r := (Rule.ofTokens_eq_ok_iff ⟨nesting ts⟩ 0).mpr ⟨hr, h_deep⟩
  have h_s := (Rule.ofTokens_eq_ok_iff ⟨nesting ts⟩ 0).mpr ⟨hs, h_deep⟩
  exact Except.ok.inj (h_r.symm.trans h_s)

/-- The machine finds the rules that reading by descent finds. -/
theorem Rule.toOption_ofTokens (m size : Nat) (ts : List Token) :
    (Rule.ofTokens ⟨m⟩ size ts).toOption = descend m ts := by
  cases h : Rule.ofTokens ⟨m⟩ size ts with
  | ok r => exact (descend_eq_some_iff.mpr ((Rule.ofTokens_eq_ok_iff _ _).mp h)).symm
  | error e =>
    cases h_desc : descend m ts with
    | none => rfl
    | some r =>
      -- what descent finds is derived, and then the machine finds it too
      have h_ok := (Rule.ofTokens_eq_ok_iff ⟨m⟩ size).mpr
        (descend_eq_some_iff.mp h_desc)
      exact absurd (h.symm.trans h_ok) (by simp)

/-- A text is read as a rule exactly if its tokens are. -/
theorem Rule.parse_eq_ok_iff {m : Nat} {text : String} {r : Rule} :
    Rule.parse ⟨m⟩ text = .ok r ↔
      ∃ ts, tokenize text = .ok ts ∧ ts ≠ [] ∧ Derives .expression ts r ∧ nesting ts ≤ m := by
  constructor
  · intro h
    obtain ⟨ts, h_tokens, h⟩ := exists_of_bind_eq_ok h
    have h_der := (Rule.ofTokens_eq_ok_iff _ _).mp h
    exact ⟨ts, h_tokens, h_der.1.ne_nil, h_der⟩
  · rintro ⟨ts, h_tokens, -, h_der⟩
    rw [Rule.parse, h_tokens]
    exact (Rule.ofTokens_eq_ok_iff _ _).mpr h_der

/-- **Texts of rules.** Under any nesting limit, a text is read as a rule exactly if it has tokens,
the grammar derives the rule from them, and their parentheses nest within the limit. In every other
case there is an error. On token lists the machine, with its stacks and frames, finds what reading
by descent finds. -/
theorem Rule.parse_iff_derives (m : Nat) (text : String) :
    (∀ r, Rule.parse ⟨m⟩ text = .ok r ↔
      ∃ ts, tokenize text = .ok ts ∧ ts ≠ [] ∧ Derives .expression ts r ∧ nesting ts ≤ m) ∧
    ((∃ e, Rule.parse ⟨m⟩ text = .error e) ↔
      ¬∃ ts r, tokenize text = .ok ts ∧ ts ≠ [] ∧ Derives .expression ts r ∧ nesting ts ≤ m) ∧
    ∀ size ts, (Rule.ofTokens ⟨m⟩ size ts).toOption = descend m ts := by
  refine ⟨fun r => Rule.parse_eq_ok_iff, ⟨?_, ?_⟩, Rule.toOption_ofTokens m⟩
  · rintro ⟨e, h_err⟩ ⟨ts, r, h_der⟩
    have h_ok := Rule.parse_eq_ok_iff.mpr ⟨ts, h_der⟩
    exact absurd (h_err.symm.trans h_ok) (by simp)
  · intro h_none
    -- there is no third outcome, so what is not refused is derived
    cases h : Rule.parse ⟨m⟩ text with
    | error e => exact ⟨e, rfl⟩
    | ok r =>
      obtain ⟨ts, h_der⟩ := Rule.parse_eq_ok_iff.mp h
      exact absurd ⟨ts, r, h_der⟩ h_none

end Eligibility
