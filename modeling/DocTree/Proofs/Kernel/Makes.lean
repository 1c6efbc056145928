import DocTree.Kernel.Call
import DocTree.Proofs.Run.Contents
import DocTree.Proofs.Tree.Revises

namespace DocTree

open Call

namespace KernelReply

-- The attributes that a reply tells.
def attr? : KernelReply → Option FileAttr
  | entry told => some told
  | attr told => some told
  | created told => some told
  | _ => none

-- The numbers that a reply tells.
def numbers : KernelReply → List Nat
  | entries listed => listed.map ListedEntry.ino
  | reply => reply.attr?.toList.map FileAttr.ino

-- A reply that tells no numbers, and that is made after a call has succeeded.
def Plain : KernelReply → Prop
  | opened => True
  | data _ => True
  | written _ => True
  | _ => False

theorem numbers_of_attr? {reply : KernelReply} {told : FileAttr} (h : reply.attr? = some told) :
    reply.numbers = [told.ino] := by
  cases reply <;> first | cases h; rfl | cases h

theorem Plain.numbers {reply : KernelReply} (h : reply.Plain) : reply.numbers = [] := by
  cases reply <;> first | rfl | exact h.elim

end KernelReply

namespace KernelCall

variable {mounted : Mounted} {caller : Caller} {now : Readings}
  {next : String → Call (KernelReply × Mounted)}

-- The number that a call is about.
def number : KernelCall → Nat
  | lookup parent _ => parent
  | getattr ino => ino
  | setattr ino _ _ _ _ => ino
  | openFile ino _ => ino
  | create parent _ _ _ => parent
  | mkdir parent _ _ _ => parent
  | unlink parent _ => parent
  | rmdir parent _ => parent
  | read ino _ _ => ino
  | write ino _ _ => ino
  | readdir ino _ _ => ino

-- The path of a name, for a directory that is known and a name that is text.
def child? (mounted : Mounted) (parent : Nat) (name : Bytes) : Option String :=
  (mounted.inodes.pathOf? parent).bind fun directory =>
    (Utf8.decode name).map (Path.join directory)

-- The path that a call is about: that of its number, or that of a name under it.
def path? (mounted : Mounted) : KernelCall → Option String
  | lookup parent name => child? mounted parent name
  | create parent name _ _ => child? mounted parent name
  | mkdir parent name _ _ => child? mounted parent name
  | unlink parent name => child? mounted parent name
  | rmdir parent name => child? mounted parent name
  | call => mounted.inodes.pathOf? call.number

-- A call for what is in front of the start of a file, which is refused for any number.
def BeforeStart : KernelCall → Prop
  | read _ offset _ => offset < 0
  | write _ offset _ => offset < 0
  | readdir _ offset _ => offset < 0
  | _ => False

theorem pathOf_eq (mounted : Mounted) (number : Nat) : mounted.pathOf number =
    (mounted.inodes.pathOf? number).elim (.error Mounted.noEntry) .ok := by
  unfold Mounted.pathOf
  cases mounted.inodes.pathOf? number <;> rfl

theorem withPath_eq (mounted : Mounted) (number : Nat) : withPath mounted number next =
    (mounted.inodes.pathOf? number).elim (pure (.error Mounted.noEntry, mounted)) next := by
  unfold withPath
  rw [pathOf_eq]
  cases mounted.inodes.pathOf? number <;> rfl

theorem withChild_eq (mounted : Mounted) (parent : Nat) (name : Bytes) :
    withChild mounted parent name next =
      (mounted.inodes.pathOf? parent).elim (pure (.error Mounted.noEntry, mounted)) fun directory =>
        (Utf8.decode name).elim (pure (invalid, mounted)) fun text =>
          next (Path.join directory text) := by
  unfold withChild Mounted.childPath
  rw [pathOf_eq]
  cases mounted.inodes.pathOf? parent with
  | none => rfl
  | some directory => cases Utf8.decode name <;> rfl

-- A number that stands for nothing is looked at by every call but one in front of the start.
theorem call_of_unknown (kernel : KernelCall)
    (hn : mounted.inodes.pathOf? kernel.number = none) (hb : ¬kernel.BeforeStart) :
    kernel.call mounted caller now = pure (.error FsError.notFound.errno, mounted) := by
  have hpath : ∀ next, withPath mounted kernel.number next =
      pure (.error FsError.notFound.errno, mounted) := fun next => by
    rw [withPath_eq, hn]
    rfl
  have hchild : ∀ name next, withChild mounted kernel.number name next =
      pure (.error FsError.notFound.errno, mounted) := fun name next => by
    rw [withChild_eq, hn]
    rfl
  cases kernel with
  | lookup parent name => exact hchild _ _
  | getattr ino => exact hpath _
  | setattr ino mode size accessed modified => exact hpath _
  | openFile ino flags => exact hpath _
  | create parent name mode umask => exact hchild _ _
  | mkdir parent name mode umask => exact hchild _ _
  | unlink parent name => exact hchild _ _
  | rmdir parent name => exact hchild _ _
  | read ino offset size => exact (if_neg hb).trans (hpath _)
  | write ino offset data => exact (if_neg hb).trans (hpath _)
  | readdir ino offset size => exact (if_neg hb).trans (hpath _)

theorem call_of_beforeStart (kernel : KernelCall) (hb : kernel.BeforeStart) :
    kernel.call mounted caller now = pure (.error FsError.invalidArgument.errno, mounted) := by
  cases kernel with
  | read ino offset size => exact if_pos hb
  | write ino offset data => exact if_pos hb
  | readdir ino offset size => exact if_pos hb
  | _ => exact hb.elim

end KernelCall

-- The calls that take no path away.
def Operation.Keeps : Operation → Prop
  | unlink _ => False
  | rmdir _ => False
  | _ => True

-- A call that is built from operations about one path, each of which takes no path away and finds
-- the clock as others may have left it.
inductive Call.Built (limits : Limits) (now : Readings) (path : String) :
    ∀ {α : Type}, Call α → Prop where
  | done {α : Type} (value : α) : Built limits now path (pure value)
  | operation {α : Type} {call : Call α} {answer : α → Answer} (operation : Operation)
      (used : Nat) (hp : operation.path = path) (hk : operation.Keeps) (ht : operation.Timely)
      (he : operation.call limits (now.after used) = answer <$> call) : Built limits now path call
  | bind {α β : Type} {call : Call α} {next : α → Call β} (h : Built limits now path call)
      (hn : ∀ value, Built limits now path (next value)) : Built limits now path (call >>= next)
  | checked {α β : Type} {value : Except FsError α} {next : α → Call β}
      (hn : ∀ found, value = .ok found → Built limits now path (next found)) :
      Built limits now path (ofExcept value >>= next)

namespace KernelCall

-- Replies that tell attributes as they are.
def TellsAttr (reply : FileAttr → KernelReply) : Prop :=
  ∀ told, (reply told).attr? = some told

-- What a kernel call about a path can be.
inductive Makes (mounted : Mounted) (caller : Caller) (now : Readings) :
    Option String → Call (KernelReply × Mounted) → Prop where
  | refusal (path? : Option String) (errno : Nat) :
      Makes mounted caller now path? (pure (.error errno, mounted))
  | look (path : String) {reply : FileAttr → KernelReply} (hr : TellsAttr reply) :
      Makes mounted caller now (some path) (replyAttr mounted path caller reply)
  | change (path : String) {α : Type} {call : Call α} {reply : FileAttr → KernelReply}
      (hb : call.Built mounted.limits now path) (hr : TellsAttr reply) :
      Makes mounted caller now (some path)
        (withAnswer mounted call fun _ => replyAttr mounted path caller reply)
  | answer (path : String) {α : Type} {call : Call α} {reply : α → KernelReply}
      (hb : call.Built mounted.limits now path) (hr : ∀ value, (reply value).Plain) :
      Makes mounted caller now (some path)
        (withAnswer mounted call fun value => pure (reply value, mounted))
  | removal (operation : Operation) {α : Type} {call : Call α} {answer : α → Answer}
      (hk : ¬operation.Keeps) (ht : operation.Timely)
      (he : operation.call mounted.limits now = answer <$> call) :
      Makes mounted caller now (some operation.path)
        (withAnswer mounted call fun _ => pure (.done, mounted.forget operation.path))
  | listing {ino size : Nat} {offset : Int64} {path : String}
      (hino : mounted.inodes.pathOf? ino = some path) (ho : ¬offset < 0) :
      Makes mounted caller now (some path) ((readdir ino offset size).call mounted caller now)

variable {mounted : Mounted} {caller : Caller} {now : Readings}
  {next : String → Call (KernelReply × Mounted)}

theorem makes_withPath (number : Nat)
    (hn : ∀ path, mounted.inodes.pathOf? number = some path →
      Makes mounted caller now (some path) (next path)) :
    Makes mounted caller now (mounted.inodes.pathOf? number) (withPath mounted number next) := by
  rw [withPath_eq]
  cases hp : mounted.inodes.pathOf? number with
  | none => exact .refusal _ _
  | some path => exact hn path hp

theorem makes_withChild (parent : Nat) (name : Bytes)
    (hn : ∀ path, Makes mounted caller now (some path) (next path)) :
    Makes mounted caller now (child? mounted parent name) (withChild mounted parent name next) := by
  rw [withChild_eq, child?]
  cases mounted.inodes.pathOf? parent with
  | none => exact .refusal _ _
  | some directory =>
    cases Utf8.decode name with
    | none => exact .refusal _ _
    | some text => exact hn _

theorem built_setAttributes {limits : Limits} {path : String} {mode : Option UInt32}
    {size : Option UInt64} {accessed modified : TimeUpdate.Wish} :
    (setAttributes limits path mode size accessed modified now).Built limits now path := by
  have hmode : (setAttributes.setMode limits path mode now).Built limits now path := by
    cases mode with
    | none => exact .done _
    | some mode =>
      exact .bind (.operation (.chmod path mode) 0 rfl trivial trivial rfl) fun _ => .done _
  have hsize : (setAttributes.setSize limits path size now).Built limits now path := by
    cases size with
    | none => exact .done _
    | some size =>
      exact .bind (.operation (.truncate path size) maxAttempts rfl trivial trivial rfl)
        fun _ => .done _
  have htimes :
      (setAttributes.setTimes limits path accessed modified now).Built limits now path := by
    unfold setAttributes.setTimes
    split
    · exact .done _
    · refine .checked fun first hf => .checked fun second hs => ?_
      have ht : (Operation.utimens path (some (first, second))).Timely :=
        ⟨TimeUpdate.sound_ofWish hf, TimeUpdate.sound_ofWish hs⟩
      exact .bind (.operation (.utimens path (some (first, second))) (2 * maxAttempts) rfl trivial
        ht rfl) fun _ => .done _
  exact .bind hmode fun _ => .bind hsize fun _ => htimes

theorem makes_call (kernel : KernelCall) :
    Makes mounted caller now (kernel.path? mounted) (kernel.call mounted caller now) := by
  have hanswer : ∀ {path : String} {α : Type} {call : Call α} {reply : α → KernelReply}
      {answer : α → Answer} (operation : Operation), operation.path = path → operation.Keeps →
      operation.Timely → operation.call mounted.limits now = answer <$> call →
      (∀ value, (reply value).Plain) →
      Makes mounted caller now (some path)
        (withAnswer mounted call fun value => pure (reply value, mounted)) :=
    fun operation hp hk ht he hr => .answer _ (.operation operation 0 hp hk ht he) hr
  cases kernel with
  | lookup parent name => exact makes_withChild parent name fun path => .look path fun _ => rfl
  | getattr ino => exact makes_withPath ino fun path _ => .look path fun _ => rfl
  | setattr ino mode size accessed modified =>
    exact makes_withPath ino fun path _ => .change path built_setAttributes fun _ => rfl
  | openFile ino flags =>
    exact makes_withPath ino fun path _ =>
      hanswer (.openFile path flags) rfl trivial trivial rfl fun _ => trivial
  | create parent name mode umask =>
    exact makes_withChild parent name fun path =>
      .change path (.operation (.create path _) 0 rfl trivial trivial rfl) fun _ => rfl
  | mkdir parent name mode umask =>
    exact makes_withChild parent name fun path =>
      .change path (.operation (.mkdir path _) 0 rfl trivial trivial rfl) fun _ => rfl
  | unlink parent name =>
    exact makes_withChild parent name fun path => .removal (.unlink path) id trivial rfl
  | rmdir parent name =>
    exact makes_withChild parent name fun path => .removal (.rmdir path) id trivial rfl
  | read ino offset size =>
    unfold call
    dsimp only
    split
    · exact .refusal _ _
    · exact makes_withPath ino fun path _ =>
        hanswer (.read path _ size) rfl trivial trivial rfl fun _ => trivial
  | write ino offset data =>
    unfold call
    dsimp only
    split
    · exact .refusal _ _
    · exact makes_withPath ino fun path _ =>
        hanswer (.write path _ data) rfl trivial trivial rfl fun _ => trivial
  | readdir ino offset size =>
    by_cases ho : offset < 0
    · rw [call_of_beforeStart (readdir ino offset size) ho]
      exact .refusal _ _
    cases hino : mounted.inodes.pathOf? ino with
    | none =>
      rw [call_of_unknown (readdir ino offset size) hino ho]
      exact .refusal _ _
    | some path =>
      have hp : (readdir ino offset size).path? mounted = some path := hino
      rw [hp]
      exact .listing hino ho

end KernelCall

end DocTree
