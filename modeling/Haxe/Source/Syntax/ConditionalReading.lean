import Haxe.Source.Syntax.ConditionalSteps

/-!
# Reading a text with conditional compilation

The rules of the steps put together along the grammar of texts: what is skipped, and
what is read up to `Eof`. Each lemma takes a text off the front of the code, for any
state in which it can stand there.
-/

namespace Haxe.Source.Syntax

open Typing (Pos)
open Theory (Settles)
open ConditionHandler (negate currentCondition)

variable {F : Type} {cfg : Config F}

theorem Skips.cons {p : Pos} {test : Bool} {T T' : Tracked} {t tk : PlacedToken}
    {code : List PlacedToken} (first : T.code = t :: code)
    (skips : SkipsFrom cfg p test t { T with code := code } tk T') : Skips cfg p test T tk T' := by
  refine Skips.of_skipsFrom ?_
  simpa only [Tracked.lex, first] using skips

theorem Next.cons {T T' : Tracked} {t tk : PlacedToken} {code : List PlacedToken}
    (first : T.code = t :: code) (processes : Processes cfg t { T with code := code } tk T') :
    Next cfg T tk T' := by
  refine Next.of_processes ?_
  simpa only [Tracked.lex, first] using processes

/-! ## Skipped text -/

mutual

theorem Skips.text (t : Text cfg) {p : Pos} {test : Bool} {T T' : Tracked}
    {rest : List PlacedToken} {tk : PlacedToken} (code : T.code = t.tokens ++ rest)
    (behind : Skips cfg p test
      { T with code := rest, visits := T.visits ++ t.visits T.st T.ds false } tk T') :
    Skips cfg p test T tk T' := by
  cases t with
  | nil =>
    obtain rfl : T.code = rest := by simpa [Text.tokens] using code
    simpa [Text.visits] using behind
  | token t plain more =>
    refine Skips.cons code (SkipsFrom.dead (Or.inl plain) (Skips.text more rfl ?_))
    simpa [Text.visits, Tracked.visited] using behind
  | line p1 s p2 more =>
    refine Skips.cons code (SkipsFrom.dead (Or.inr (Or.inr rfl)) ?_)
    refine Skips.cons rfl (SkipsFrom.dead (Or.inl rfl) (Skips.text more rfl ?_))
    simpa [Text.visits, Tracked.visited] using behind
  | error p1 more =>
    refine Skips.cons code (SkipsFrom.dead (Or.inr (Or.inl rfl)) (Skips.text more rfl ?_))
    simpa [Text.visits, Tracked.visited] using behind
  | conditional p1 c body br more =>
    simp only [Text.tokens, List.cons_append, List.append_assoc] at code
    have inBranches := Skips.branches br p [] (T := { T with
      code := br.tokens ++ (more.tokens ++ rest), st := c.e :: T.st, ds := 1 :: T.ds
      blocks := deadBlock c.e.pos (c.e :: T.st) :: T.blocks
      visits := T.visits ++ ⟨(.sharp "if", p1), false, T.st, T.ds⟩ ::
        body.visits (c.e :: T.st) (1 :: T.ds) false }) rfl rfl rfl rfl
    have afterEnd : Skips cfg p test
        { T with
          code := more.tokens ++ rest
          visits := T.visits ++ ⟨(.sharp "if", p1), false, T.st, T.ds⟩ ::
            (body.visits (c.e :: T.st) (1 :: T.ds) false ++
              br.visits (c.e :: T.st) (1 :: T.ds) false false) } tk T' :=
      Skips.text more rfl (by simpa [Text.visits] using behind)
    refine Skips.cons code (SkipsFrom.if_ rfl (Skips.text body rfl ?_) afterEnd.skipsFrom)
    simpa [Tracked.visited] using inBranches

/-- The branches behind one that is skipped, up to the `#end`. -/
theorem Skips.branches (br : Branches cfg) (p : Pos) {T : Tracked} {top : Expr}
    (inner : List Expr) {outer : List Expr} {ds : List Nat} {b : Pos × Expr}
    {bs : List (Pos × Expr)} {rest : List PlacedToken} (code : T.code = br.tokens ++ rest)
    (st : T.st = top :: inner ++ outer) (depths : T.ds = (inner.length + 1) :: ds)
    (blocks : T.blocks = b :: bs) :
    Skips cfg p false T
      (({ T with
        code := rest, st := outer, ds := ds, blocks := bs
        visits := T.visits ++ br.visits T.st T.ds false false } : Tracked).lex cfg).1
      (({ T with
        code := rest, st := outer, ds := ds, blocks := bs
        visits := T.visits ++ br.visits T.st T.ds false false } : Tracked).lex cfg).2 := by
  cases br with
  | endif p1 => exact Skips.cons code (SkipsFrom.endif (top :: inner) st depths blocks)
  | elseif p1 c body more =>
    simp only [Branches.tokens, List.cons_append, List.append_assoc] at code
    refine Skips.cons code (SkipsFrom.elseif st depths blocks rfl (Skips.text body rfl ?_))
    have branches := Skips.branches more p (negate top :: inner) (T := { T with
        code := more.tokens ++ rest, st := c.e :: negate top :: inner ++ outer
        ds := (inner.length + 1 + 1) :: ds
        blocks := deadBlock c.e.pos (c.e :: negate top :: inner ++ outer) :: bs
        visits := T.visits ++ ⟨(.sharp "elseif", p1), false, T.st, T.ds⟩ ::
          body.visits (c.e :: negate top :: inner ++ outer) ((inner.length + 1 + 1) :: ds)
            false }) rfl rfl rfl rfl
    simpa [Tracked.visited, Branches.visits, st, depths, negateTop, deepen] using branches
  | else_ p1 body p2 =>
    simp only [Branches.tokens, List.cons_append, List.append_assoc, List.nil_append] at code
    refine Skips.cons code (SkipsFrom.else_ st blocks (Skips.text body rfl ?_))
    have ended : SkipsFrom cfg p false (.sharp "end", p2)
        { T with
          code := rest, st := negate top :: inner ++ outer
          blocks := deadBlock p1 (negate top :: inner ++ outer) :: bs
          visits := T.visits ++ ⟨(.sharp "else", p1), false, T.st, T.ds⟩ ::
            body.visits (negate top :: inner ++ outer) T.ds false } _ _ :=
      SkipsFrom.endif (negate top :: inner) rfl depths rfl
    refine Skips.cons rfl ?_
    simpa [Tracked.visited, Branches.visits, st, depths, negateTop] using ended

end

/-! ## Live text -/

/-- The tokens that are read from `T` up to `Eof`, and the state behind it. -/
inductive Reads (cfg : Config F) : Tracked → List PlacedToken → Tracked → Prop
  | eof {T T' : Tracked} {p : Pos} (next : Next cfg T (.eof, p) T') : Reads cfg T [(.eof, p)] T'
  | token {T T1 T' : Tracked} {tk : PlacedToken} {ts : List PlacedToken}
    (next : Next cfg T tk T1) (notEof : tk.1 ≠ .eof) (more : Reads cfg T1 ts T') :
    Reads cfg T (tk :: ts) T'

theorem Reads.of_next {T T' Tf : Tracked} {ts : List PlacedToken}
    (next : ∀ tk T1, Next cfg T' tk T1 → Next cfg T tk T1) (reads : Reads cfg T' ts Tf) :
    Reads cfg T ts Tf := by
  cases reads with
  | eof first => exact Reads.eof (next _ _ first)
  | token first notEof more => exact Reads.token (next _ _ first) notEof more

theorem Reads.entry {T T' : Tracked} {ts : List PlacedToken} (reads : Reads cfg T ts T') :
    ∀ s : State, s.tracked = T →
      ∃ s' : State, s'.tracked = T' ∧ Settles (fun n => entry cfg n s) (.ok (ts, s')) := by
  induction reads with
  | eof next =>
    intro s tracked
    obtain ⟨s', tracked', settles⟩ := next s tracked
    refine ⟨s', tracked', Settles.step settles fun m call => ?_⟩
    simp [Syntax.entry, bind, StateT.bind, Except.bind, call, pure_apply]
  | token next notEof _ ih =>
    intro s tracked
    obtain ⟨s1, tracked1, settles1⟩ := next s tracked
    obtain ⟨s', tracked', settles⟩ := ih s1 tracked1
    refine ⟨s', tracked', Settles.step₂ settles1 settles fun m call call2 => ?_⟩
    simp [Syntax.entry, bind, StateT.bind, Except.bind, call, call2, notEof, pure_apply]

/-- Behind a live branch nothing is read up to the `#end`, and no condition evaluated. -/
theorem Next.branches (br : Branches cfg) {T T' : Tracked} {p' : Pos} {l : List Pos}
    (top : Expr) (inner outer : List Expr) (ds : List Nat)
    {rest : List PlacedToken} {tk : PlacedToken} (code : T.code = br.tokens ++ rest)
    (mstack : T.mstack = p' :: l) (st : T.st = top :: inner ++ outer)
    (depths : T.ds = (inner.length + 1) :: ds)
    (next : Next cfg
      { T with
        code := rest, mstack := l, st := outer, ds := ds
        visits := T.visits ++ br.visits T.st T.ds true false } tk T') :
    Next cfg T tk T' := by
  cases br with
  | endif p1 => exact Next.cons code (Processes.endif (top :: inner) mstack st depths next)
  | elseif p1 c body more =>
    simp only [Branches.tokens, List.cons_append, List.append_assoc] at code
    refine Next.cons code (Processes.elseif mstack st depths rfl (Skips.text body rfl ?_)
      next.processes)
    have inBranches := Skips.branches more p1 (negate top :: inner) (T := { T with
      code := more.tokens ++ rest, mstack := l, st := c.e :: negate top :: inner ++ outer
      ds := (inner.length + 1 + 1) :: ds
      blocks := deadBlock c.e.pos (c.e :: negate top :: inner ++ outer) :: T.blocks
      visits := T.visits ++ ⟨(.sharp "elseif", p1), true, T.st, T.ds⟩ ::
        body.visits (c.e :: negate top :: inner ++ outer) ((inner.length + 1 + 1) :: ds)
          false }) rfl rfl rfl rfl
    simpa [Tracked.visited, Branches.visits, st, depths, negateTop, deepen] using inBranches
  | else_ p1 body p2 =>
    simp only [Branches.tokens, List.cons_append, List.append_assoc, List.nil_append] at code
    refine Next.cons code (Processes.else_ mstack st (Skips.text body rfl ?_) next.processes)
    have ended : SkipsFrom cfg p1 false (.sharp "end", p2)
        { T with
          code := rest, mstack := l, st := negate top :: inner ++ outer
          blocks := deadBlock p1 (negate top :: inner ++ outer) :: T.blocks
          visits := T.visits ++ ⟨(.sharp "else", p1), true, T.st, T.ds⟩ ::
            body.visits (negate top :: inner ++ outer) T.ds false } _ _ :=
      SkipsFrom.endif (negate top :: inner) rfl depths rfl
    refine Skips.cons rfl ?_
    simpa [Tracked.visited, Branches.visits, st, depths, negateTop] using ended

mutual

theorem Reads.text (t : Text cfg) {T Tf : Tracked} {rest ts : List PlacedToken}
    (undisturbed : t.Undisturbed true) (code : T.code = t.tokens ++ rest)
    (behind : Reads cfg
      { T with
        code := rest, visits := T.visits ++ t.visits T.st T.ds true
        evaluated := T.evaluated ++ t.evaluated } ts Tf) :
    Reads cfg T (t.delivered ++ ts) Tf := by
  cases t with
  | nil =>
    obtain rfl : T.code = rest := by simpa [Text.tokens] using code
    simpa [Text.visits, Text.evaluated, Text.delivered] using behind
  | token tk plain more =>
    obtain ⟨quiet, undisturbed⟩ := undisturbed
    have reads : Reads cfg ({ T with code := more.tokens ++ rest }.visited tk true)
        (more.delivered ++ ts) Tf :=
      Reads.text more undisturbed rfl
        (by simpa [Text.visits, Text.evaluated, Tracked.visited] using behind)
    obtain ⟨tk, p⟩ := tk
    by_cases comment : isComment tk = true
    · simp only [Text.delivered, comment, if_true]
      refine Reads.of_next (fun tk' T1 next => Next.cons code ?_) reads
      cases tk with
      | comment text => exact Processes.comment next
      | commentLine text => exact Processes.commentLine (quiet rfl text rfl) next
      | _ => simp [isComment] at comment
    · simp only [Bool.not_eq_true] at comment
      simp only [Text.delivered, comment, if_false, Bool.false_eq_true, List.cons_append]
      refine Reads.token (Next.cons code (Processes.plain plain comment)) ?_ reads
      rintro rfl
      cases plain
  | line p1 s p2 more =>
    obtain ⟨number, undisturbed⟩ := undisturbed
    refine Reads.of_next (fun tk' T1 next => Next.cons code
      (Processes.line rfl (number rfl) next)) (Reads.text more undisturbed rfl ?_)
    simpa [Text.visits, Text.evaluated, Tracked.visited] using behind
  | error p1 more => exact absurd undisturbed.1 (by simp)
  | conditional p1 c body br more =>
    obtain ⟨evaluates, bodyQuiet, brQuiet, moreQuiet⟩ := undisturbed
    simp only [Text.tokens, List.cons_append, List.append_assoc] at code
    cases taken : holds cfg c.e with
    | true =>
      rw [taken] at bodyQuiet
      refine Reads.of_next (fun tk' T1 next => Next.cons code
        (Processes.if_ (enterMacro_taken p1 rfl (by simp) evaluates taken) next.processes)) ?_
      simp only [Text.delivered, taken, if_true, List.append_assoc]
      refine Reads.text body bodyQuiet rfl (Reads.of_next
        (fun tk' T1 next => Next.branches br c.e [] T.st T.ds rfl rfl rfl rfl next)
        (Reads.text more moreQuiet rfl ?_))
      simpa [Text.visits, Text.evaluated, Tracked.visited, Tracked.entered, taken] using behind
    | false =>
      rw [taken] at brQuiet
      obtain ⟨T2, skips, reads⟩ := Reads.branches br p1 []
        (T := { T with
          code := br.tokens ++ (more.tokens ++ rest), st := c.e :: T.st, ds := 1 :: T.ds
          blocks := deadBlock c.e.pos (c.e :: T.st) :: T.blocks
          visits := T.visits ++ ⟨(.sharp "if", p1), true, T.st, T.ds⟩ ::
            body.visits (c.e :: T.st) (1 :: T.ds) false
          evaluated := T.evaluated ++ [c.e] }) brQuiet rfl rfl rfl rfl
        (Reads.text more moreQuiet rfl (by
          simpa [Text.visits, Text.evaluated, Tracked.visited, taken] using behind))
      simp only [Text.delivered, taken, if_false, Bool.false_eq_true, List.append_assoc]
      refine Reads.of_next (fun tk' T1 next => Next.cons code (Processes.if_
        (enterMacro_skipped rfl (by simp) evaluates taken ?_) next.processes)) reads
      refine Skips.text body rfl ?_
      simpa [Tracked.visited, Tracked.entered] using skips

theorem Reads.branches (br : Branches cfg) (p : Pos) {T Tf : Tracked} {top : Expr}
    (inner : List Expr) {outer : List Expr} {ds : List Nat} {b : Pos × Expr}
    {bs : List (Pos × Expr)} {rest ts : List PlacedToken} (undisturbed : br.Undisturbed true)
    (code : T.code = br.tokens ++ rest) (st : T.st = top :: inner ++ outer)
    (depths : T.ds = (inner.length + 1) :: ds) (blocks : T.blocks = b :: bs)
    (behind : Reads cfg
      { T with
        code := rest, st := outer, ds := ds, blocks := bs
        visits := T.visits ++ br.visits T.st T.ds false true
        evaluated := T.evaluated ++ br.evaluated } ts Tf) :
    ∃ T2 : Tracked, Skips cfg p true T (T2.lex cfg).1 (T2.lex cfg).2 ∧
      Reads cfg T2 (br.delivered ++ ts) Tf := by
  cases br with
  | endif p1 =>
    refine ⟨_, Skips.cons code (SkipsFrom.endif (top :: inner) st depths blocks), ?_⟩
    simpa [Branches.visits, Branches.evaluated, Branches.delivered, Tracked.visited] using behind
  | elseif p1 c body more =>
    obtain ⟨evaluates, bodyQuiet, moreQuiet⟩ := undisturbed
    simp only [Branches.tokens, List.cons_append, List.append_assoc] at code
    have open_ : T.st ≠ [] ∧ T.ds ≠ [] := by simp [st, depths]
    cases taken : holds cfg c.e with
    | true =>
      rw [taken] at bodyQuiet
      refine ⟨_, Skips.cons code (SkipsFrom.elseif_entered blocks
        (enterMacro_taken p1 rfl (fun _ => open_) evaluates taken)), ?_⟩
      simp only [Branches.delivered, taken, if_true]
      refine Reads.text body bodyQuiet rfl (Reads.of_next (fun tk' T1 next =>
        Next.branches more c.e (negate top :: inner) outer ds rfl rfl ?_ ?_ next) ?_)
      · simp [Tracked.entered, Tracked.visited, st, negateTop]
      · simp [Tracked.entered, Tracked.visited, depths, deepen]
      · simpa [Branches.visits, Branches.evaluated, Tracked.visited, Tracked.entered, taken, st,
          negateTop, depths, deepen] using behind
    | false =>
      rw [taken] at moreQuiet
      obtain ⟨T2, skips, reads⟩ := Reads.branches more p1 (negate top :: inner)
        (T := { T with
          code := more.tokens ++ rest, st := c.e :: negate top :: inner ++ outer
          ds := (inner.length + 1 + 1) :: ds
          blocks := deadBlock c.e.pos (c.e :: negate top :: inner ++ outer) :: bs
          visits := T.visits ++ ⟨(.sharp "elseif", p1), false, T.st, T.ds⟩ ::
            body.visits (c.e :: negate top :: inner ++ outer) ((inner.length + 1 + 1) :: ds)
              false
          evaluated := T.evaluated ++ [c.e] }) moreQuiet rfl rfl rfl rfl (by
          simpa [Branches.visits, Branches.evaluated, Tracked.visited, taken, st, negateTop,
            depths, deepen] using behind)
      simp only [Branches.delivered, taken, if_false, Bool.false_eq_true]
      refine ⟨T2, Skips.cons code (SkipsFrom.elseif_entered blocks
        (enterMacro_skipped rfl (fun _ => open_) evaluates taken ?_)), reads⟩
      refine Skips.text body rfl ?_
      simpa [Tracked.visited, Tracked.entered, st, negateTop, depths, deepen] using skips
  | else_ p1 body p2 =>
    simp only [Branches.tokens, List.cons_append, List.append_assoc, List.nil_append] at code
    refine ⟨_, Skips.cons code (SkipsFrom.else_entered st blocks),
      Reads.text body undisturbed rfl (Reads.of_next (fun tk' T1 next => Next.branches (.endif p2)
        (negate top) inner outer ds rfl rfl rfl depths next) ?_)⟩
    simpa [Branches.visits, Branches.evaluated, Tracked.visited, st, negateTop] using behind

end

/-! ## Files that end inside conditionals -/

/-- The state at the end of a file; a dead block is left open when it ends skipped. -/
structure EndsAs (T : Tracked) (visits : List Visit) (evaluated : List Expr)
    (blocks : List (Pos × Expr)) (skipped : Bool) : Prop where
  visits : T.visits = visits
  evaluated : T.evaluated = evaluated
  blocks : if skipped then T.blocks ≠ [] else T.blocks = blocks

theorem Skips.end (display : cfg.inDisplay = true) {p : Pos} {test : Bool} {T : Tracked}
    (code : T.code = []) :
    Skips cfg p test T (.eof, cfg.eofPos) T := by
  refine Skips.of_skipsFrom ?_
  simpa only [Tracked.lex, code] using SkipsFrom.eof display

mutual

theorem Skips.file (display : cfg.inDisplay = true) (f : File cfg) (p : Pos) (test : Bool)
    {T : Tracked}
    (code : T.code = f.tokens) (blocks : T.blocks ≠ []) :
    ∃ T', Skips cfg p test T (.eof, cfg.eofPos) T' ∧
      EndsAs T' (T.visits ++ f.visits T.st T.ds false) T.evaluated [] true := by
  cases f with
  | complete t =>
    refine ⟨_, Skips.text t (by simpa [File.tokens] using code : T.code = t.tokens ++ [])
      (Skips.end display rfl), rfl, rfl, ?_⟩
    simpa using blocks
  | unclosed t p1 c u =>
    obtain ⟨T', skips, ends⟩ := Skips.unclosed display u p (T := { T with
      code := u.tokens, st := c.e :: T.st, ds := 1 :: T.ds
      blocks := deadBlock c.e.pos (c.e :: T.st) :: T.blocks
      visits := T.visits ++ (t.visits T.st T.ds false ++
        [⟨(.sharp "if", p1), false, T.st, T.ds⟩]) }) rfl rfl rfl rfl
    refine ⟨T', Skips.text t (by simpa only [File.tokens] using code) (Skips.cons rfl
      (SkipsFrom.if_ rfl (by simpa [Tracked.visited] using skips) (SkipsFrom.eof display))), ?_⟩
    simpa [File.visits] using ends

theorem Skips.unclosed (display : cfg.inDisplay = true) (u : Unclosed cfg) (p : Pos)
    {T : Tracked} {top : Expr} {el : List Expr} {d : Nat} {ds : List Nat} {b : Pos × Expr}
    {bs : List (Pos × Expr)}
    (code : T.code = u.tokens) (st : T.st = top :: el) (depths : T.ds = d :: ds)
    (blocks : T.blocks = b :: bs) :
    ∃ T', Skips cfg p false T (.eof, cfg.eofPos) T' ∧
      EndsAs T' (T.visits ++ u.visits T.st T.ds false false) T.evaluated [] true := by
  cases u with
  | inside f =>
    exact Skips.file display f p false (by simpa only [Unclosed.tokens] using code)
      (by simp [blocks])
  | elseif body p1 c u =>
    obtain ⟨T', skips, ends⟩ := Skips.unclosed display u p (T := { T with
      code := u.tokens, st := c.e :: negate top :: el, ds := (d + 1) :: ds
      blocks := deadBlock c.e.pos (c.e :: negate top :: el) :: bs
      visits := T.visits ++ (body.visits T.st T.ds false ++
        [⟨(.sharp "elseif", p1), false, T.st, T.ds⟩]) }) rfl rfl rfl rfl
    refine ⟨T', Skips.text body (by simpa only [Unclosed.tokens] using code) (Skips.cons rfl
      (SkipsFrom.elseif st depths blocks rfl (by simpa [Tracked.visited] using skips))), ?_⟩
    simpa [Unclosed.visits, st, depths, negateTop, deepen] using ends
  | else_ body p1 f =>
    obtain ⟨T', skips, ends⟩ := Skips.file display f p false (T := { T with
      code := f.tokens, st := negate top :: el
      blocks := deadBlock p1 (negate top :: el) :: bs
      visits := T.visits ++ (body.visits T.st T.ds false ++
        [⟨(.sharp "else", p1), false, T.st, T.ds⟩]) }) rfl (by simp)
    refine ⟨T', Skips.text body (by simpa only [Unclosed.tokens] using code) (Skips.cons rfl
      (SkipsFrom.else_ st blocks (by simpa [Tracked.visited] using skips))), ?_⟩
    simpa [Unclosed.visits, st, negateTop] using ends

end

mutual

theorem Reads.file (display : cfg.inDisplay = true) (f : File cfg) {T : Tracked}
    (undisturbed : f.Undisturbed true) (code : T.code = f.tokens) :
    ∃ T', Reads cfg T (f.delivered ++ [(.eof, cfg.eofPos)]) T' ∧
      EndsAs T' (T.visits ++ f.visits T.st T.ds true) (T.evaluated ++ f.evaluated) T.blocks
        f.endsSkipped := by
  cases f with
  | complete t =>
    refine ⟨_, Reads.text t undisturbed
      (by simpa [File.tokens] using code : T.code = t.tokens ++ []) (Reads.eof
        (Next.of_processes Processes.eof)), rfl, rfl, rfl⟩
  | unclosed t p c u =>
    obtain ⟨textQuiet, evaluates, quiet⟩ := undisturbed
    simp only [File.tokens] at code
    cases taken : holds cfg c.e with
    | true =>
      rw [taken] at quiet
      obtain ⟨T', reads, ends⟩ := Reads.unclosed display u quiet (q := p) (l := T.mstack)
        (T := { T with
          code := u.tokens, mstack := p :: T.mstack, st := c.e :: T.st, ds := 1 :: T.ds
          visits := T.visits ++ (t.visits T.st T.ds true ++
            [⟨(.sharp "if", p), true, T.st, T.ds⟩])
          evaluated := T.evaluated ++ (t.evaluated ++ [c.e]) }) rfl rfl rfl rfl
      refine ⟨T', ?_, by simpa [File.visits, File.evaluated, File.endsSkipped, taken] using ends⟩
      simp only [File.delivered, taken, List.append_assoc]
      refine Reads.text t textQuiet code (Reads.of_next (fun tk T1 next => Next.cons rfl
        (Processes.if_ (enterMacro_taken p rfl (by simp) evaluates taken) ?_)) reads)
      simpa [Tracked.visited, Tracked.entered] using next.processes
    | false =>
      rw [taken] at quiet
      obtain ⟨T', reads, ends⟩ := Reads.seeking display u quiet (p := p)
        (X := { T with
          code := (.sharp "if", p) :: (c.tokens ++ u.tokens)
          visits := T.visits ++ t.visits T.st T.ds true
          evaluated := T.evaluated ++ t.evaluated })
        (T := { T with
          code := u.tokens, st := c.e :: T.st, ds := 1 :: T.ds
          blocks := deadBlock c.e.pos (c.e :: T.st) :: T.blocks
          visits := T.visits ++ (t.visits T.st T.ds true ++
            [⟨(.sharp "if", p), true, T.st, T.ds⟩])
          evaluated := T.evaluated ++ (t.evaluated ++ [c.e]) }) rfl rfl rfl rfl
        (fun tk1 T1 tk T'' skips next => Next.cons rfl
          (Processes.if_ (enterMacro_skipped rfl (by simp) evaluates taken
            (by simpa [Tracked.visited, Tracked.entered] using skips)) next))
      refine ⟨T', ?_, by simpa [File.visits, File.evaluated, File.endsSkipped, taken] using ends⟩
      simp only [File.delivered, taken, List.append_assoc]
      exact Reads.text t textQuiet code reads

/-- The rest of a file behind the start of a live branch. -/
theorem Reads.unclosed (display : cfg.inDisplay = true) (u : Unclosed cfg) {T : Tracked}
    {q : Pos} {l : List Pos} {top : Expr} {el : List Expr} {d : Nat} {ds : List Nat}
    (undisturbed : u.Undisturbed true false) (code : T.code = u.tokens)
    (mstack : T.mstack = q :: l) (st : T.st = top :: el) (depths : T.ds = d :: ds) :
    ∃ T', Reads cfg T (u.delivered true ++ [(.eof, cfg.eofPos)]) T' ∧
      EndsAs T' (T.visits ++ u.visits T.st T.ds true false) (T.evaluated ++ u.evaluated true)
        T.blocks (u.endsSkipped true) := by
  cases u with
  | inside f => exact Reads.file display f undisturbed code
  | elseif body p c u =>
    simp only [Unclosed.tokens] at code
    obtain ⟨T', skips, ends⟩ := Skips.unclosed display u p (T := { T with
      code := u.tokens, mstack := l, st := c.e :: negate top :: el, ds := (d + 1) :: ds
      blocks := deadBlock c.e.pos (c.e :: negate top :: el) :: T.blocks
      visits := T.visits ++ (body.visits T.st T.ds true ++
        [⟨(.sharp "elseif", p), true, T.st, T.ds⟩])
      evaluated := T.evaluated ++ body.evaluated }) rfl rfl rfl rfl
    refine ⟨T', Reads.text body undisturbed.1 code (Reads.eof (Next.cons rfl
      (Processes.elseif mstack st depths rfl (by simpa [Tracked.visited] using skips)
        Processes.eof))), ends.visits.trans ?_, ends.evaluated.trans ?_, ends.blocks⟩
    · simp [Unclosed.visits, st, depths, negateTop, deepen]
    · simp [Unclosed.evaluated]
  | else_ body p f =>
    simp only [Unclosed.tokens] at code
    obtain ⟨T', skips, ends⟩ := Skips.file display f p false (T := { T with
      code := f.tokens, mstack := l, st := negate top :: el
      blocks := deadBlock p (negate top :: el) :: T.blocks
      visits := T.visits ++ (body.visits T.st T.ds true ++
        [⟨(.sharp "else", p), true, T.st, T.ds⟩])
      evaluated := T.evaluated ++ body.evaluated }) rfl (by simp)
    refine ⟨T', Reads.text body undisturbed.1 code (Reads.eof (Next.cons rfl
      (Processes.else_ mstack st (by simpa [Tracked.visited] using skips) Processes.eof))),
      ends.visits.trans ?_, ends.evaluated.trans ?_, ends.blocks⟩
    · simp [Unclosed.visits, st, negateTop]
    · simp [Unclosed.evaluated]

/-- The rest of a file while no branch was taken yet. `X` is where the skipping was
started. -/
theorem Reads.seeking (display : cfg.inDisplay = true) (u : Unclosed cfg) {T X : Tracked}
    {p : Pos} {top : Expr} {el : List Expr} {d : Nat} {ds : List Nat} {b : Pos × Expr}
    {bs : List (Pos × Expr)} (undisturbed : u.Undisturbed false true) (code : T.code = u.tokens)
    (st : T.st = top :: el) (depths : T.ds = d :: ds) (blocks : T.blocks = b :: bs)
    (started : ∀ tk1 T1 tk T', Skips cfg p true T tk1 T1 → Processes cfg tk1 T1 tk T' →
      Next cfg X tk T') :
    ∃ T', Reads cfg X (u.delivered false ++ [(.eof, cfg.eofPos)]) T' ∧
      EndsAs T' (T.visits ++ u.visits T.st T.ds false true) (T.evaluated ++ u.evaluated false)
        bs (u.endsSkipped false) := by
  cases u with
  | inside f =>
    obtain ⟨T', skips, ends⟩ := Skips.file display f p true code (by simp [blocks])
    refine ⟨T', Reads.eof (started _ _ _ _ skips Processes.eof), ends.visits,
      ends.evaluated.trans ?_, ends.blocks⟩
    simp [Unclosed.evaluated]
  | elseif body p1 c u =>
    obtain ⟨-, evaluates, quiet⟩ := undisturbed
    simp only [Unclosed.tokens] at code
    have open_ : T.st ≠ [] ∧ T.ds ≠ [] := by simp [st, depths]
    cases taken : holds cfg c.e with
    | true =>
      rw [taken] at quiet
      obtain ⟨T', reads, ends⟩ := Reads.unclosed display u quiet (q := p1) (l := T.mstack)
        (T := { T with
          code := u.tokens, mstack := p1 :: T.mstack, st := c.e :: negate top :: el
          ds := (d + 1) :: ds, blocks := bs
          visits := T.visits ++ (body.visits T.st T.ds false ++
            [⟨(.sharp "elseif", p1), false, T.st, T.ds⟩])
          evaluated := T.evaluated ++ [c.e] }) rfl rfl rfl rfl
      refine ⟨T', ?_, by
        simpa [Unclosed.visits, Unclosed.evaluated, Unclosed.endsSkipped, taken, st, depths,
          negateTop, deepen] using ends⟩
      simp only [Unclosed.delivered, taken, if_false, Bool.false_eq_true]
      refine Reads.of_next (fun tk T1 next => started _ _ _ _ (Skips.text body code (Skips.cons rfl
        (SkipsFrom.elseif_entered blocks
          (enterMacro_taken p1 rfl (fun _ => open_) evaluates taken)))) ?_) reads
      simpa [Tracked.visited, Tracked.entered, st, depths, negateTop, deepen] using next.processes
    | false =>
      rw [taken] at quiet
      obtain ⟨T', reads, ends⟩ := Reads.seeking display u quiet (p := p1) (X := X)
        (T := { T with
          code := u.tokens, st := c.e :: negate top :: el, ds := (d + 1) :: ds
          blocks := deadBlock c.e.pos (c.e :: negate top :: el) :: bs
          visits := T.visits ++ (body.visits T.st T.ds false ++
            [⟨(.sharp "elseif", p1), false, T.st, T.ds⟩])
          evaluated := T.evaluated ++ [c.e] }) rfl rfl rfl rfl
        (fun tk1 T1 tk T'' skips next => started _ _ _ _ (Skips.text body code (Skips.cons rfl
          (SkipsFrom.elseif_entered blocks (enterMacro_skipped rfl (fun _ => open_) evaluates taken
            (by simpa [Tracked.visited, Tracked.entered, st, depths, negateTop, deepen]
              using skips))))) next)
      refine ⟨T', ?_, by
        simpa [Unclosed.visits, Unclosed.evaluated, Unclosed.endsSkipped, taken, st, depths,
          negateTop, deepen] using ends⟩
      simpa only [Unclosed.delivered, taken, if_false, Bool.false_eq_true] using reads
  | else_ body p1 f =>
    simp only [Unclosed.tokens] at code
    obtain ⟨T', reads, ends⟩ := Reads.file display f
      (T := { T with
        code := f.tokens, mstack := p1 :: T.mstack, st := negate top :: el, blocks := bs
        visits := T.visits ++ (body.visits T.st T.ds false ++
          [⟨(.sharp "else", p1), false, T.st, T.ds⟩]) }) undisturbed.2 rfl
    refine ⟨T', ?_, by
      simpa [Unclosed.visits, Unclosed.evaluated, Unclosed.endsSkipped, st, negateTop]
        using ends⟩
    simp only [Unclosed.delivered, if_false, Bool.false_eq_true]
    refine Reads.of_next (fun tk T1 next => started _ _ _ _ (Skips.text body code (Skips.cons rfl
      (SkipsFrom.else_entered st blocks))) ?_) reads
    simpa [Tracked.visited] using next.processes

end

/-! ## The end of `parse` -/

theorem reportUnclosed_accepted {s : State} (accepted : s.mstack = [] ∨ cfg.inDisplay = true) :
    ∃ errors, reportUnclosed cfg s = .ok ((), { s with syntaxErrors := errors }) := by
  unfold reportUnclosed
  split
  · next p l open_ =>
    have display : cfg.inDisplay = true := by simpa [open_] using accepted
    exact ⟨_, by simp only [syntaxError, display, if_true]; rfl⟩
  · exact ⟨s.syntaxErrors, rfl⟩

theorem parseResult_closed (cfg : Config F) {s : State} (closed : s.dbc.currentBlock = [])
    (l : List PlacedToken) : ∃ result, parseResult cfg l s = .ok (result, s) ∧ result.read = l := by
  have blocks : s.dbc.getDeadBlocks = .ok s.dbc.deadBlocks := by
    simp [DeadBlockCollector.getDeadBlocks, closed]
  simp only [parseResult, blocks]
  split
  · exact ⟨_, rfl, rfl⟩
  · split
    · exact ⟨_, rfl, rfl⟩
    · exact ⟨_, rfl, rfl⟩

theorem parseResult_open (cfg : Config F) {s : State} (open_ : s.dbc.currentBlock ≠ [])
    (l : List PlacedToken) :
    parseResult cfg l s = .error .assertFailure := by
  have blocks : s.dbc.getDeadBlocks = .error .assertFailure := by
    simp [DeadBlockCollector.getDeadBlocks, open_]
  simp [parseResult, blocks]

theorem parse_closed {code ts : List PlacedToken} {s : State}
    (reads : Settles (fun n => entry cfg n (initial code)) (.ok (ts, s)))
    (accepted : s.mstack = [] ∨ cfg.inDisplay = true) (closed : s.dbc.currentBlock = []) :
    ∃ result s', Settles (fun n => parse cfg n code) (.ok (result, s')) ∧ result.read = ts ∧
      s'.tracked = s.tracked := by
  obtain ⟨n, settled⟩ := reads
  obtain ⟨errors, reported⟩ := reportUnclosed_accepted accepted
  obtain ⟨result, resulted, read⟩ := parseResult_closed cfg
    (s := { s with syntaxErrors := errors }) closed ts
  refine ⟨result, { s with syntaxErrors := errors }, ⟨n, fun m hm => ?_⟩, read, rfl⟩
  have entered : entry cfg m (initial code) = .ok (ts, s) := settled m hm
  simp only [parse, parseBody, bind, StateT.bind, Except.bind, entered, reported, resulted]

theorem parse_open {code ts : List PlacedToken} {s : State}
    (reads : Settles (fun n => entry cfg n (initial code)) (.ok (ts, s)))
    (accepted : s.mstack = [] ∨ cfg.inDisplay = true) (open_ : s.dbc.currentBlock ≠ []) :
    Settles (fun n => parse cfg n code) (.error .assertFailure) := by
  obtain ⟨n, settled⟩ := reads
  obtain ⟨errors, reported⟩ := reportUnclosed_accepted accepted
  have failed := parseResult_open cfg (s := { s with syntaxErrors := errors }) open_ ts
  refine ⟨n, fun m hm => ?_⟩
  have entered : entry cfg m (initial code) = .ok (ts, s) := settled m hm
  simp only [parse, parseBody, bind, StateT.bind, Except.bind, entered, reported, failed]

end Haxe.Source.Syntax
