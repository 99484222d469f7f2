import OsuTracker.Machine.Regions

/-! # Publishing the avatar

An endpoint function that has downloaded an avatar stores its bytes and raises a flag, both under
the avatar mutex. The window looks at the flag in every frame, without the mutex, and builds its
texture anew when the flag is up; it lowers the flag before it gives the mutex back. A window starts
without a texture and raises the flag itself when there are bytes. Every statement is one step, and
there is one window at a time.
-/

namespace OsuTracker.Model.View.AvatarUpload

open Machine.Regions

/-! ## State -/

/-- The globals, and the texture of the window. -/
structure Shared (Texture : Type) where
  avatarBytes : List UInt8 := []
  avatarDirty : Bool := false
  /-- Some thread holds `avatarMutex`. -/
  locked : Bool := false
  /-- The variable `avatarTex` while the frame loop runs; no texture is zero. -/
  avatarTex : Option (Option Texture) := none
deriving DecidableEq

/-- Where an endpoint function is after a download. -/
inductive Producer where
  | locking (data : List UInt8)
  | storing (data : List UInt8)
  | marking
  | unlocking
  | returned
deriving DecidableEq

/-- Where `ui_main` is. -/
inductive Ui where
  | closed
  | opening
  | marking
  /-- At the head of the frame loop. -/
  | frame
  | dropping
  | locking
  | building
  | clearing
  | unlocking
deriving DecidableEq

inductive Thread where
  | ui (position : Ui)
  | producer (position : Producer)
deriving DecidableEq

/-! ## Steps -/

section Steps

variable {Texture : Type} (decode : List UInt8 → Option Texture)

/-- The texture of some bytes, if there are any and they decode. -/
def build (avatarBytes : List UInt8) : Option Texture := if avatarBytes = [] then none else decode avatarBytes

/-- A statement of an endpoint function. -/
def publish (s : Shared Texture) : Producer → Option (Shared Texture × Producer)
  | .locking data => if s.locked then none else some ({ s with locked := true }, .storing data)
  | .storing data => some ({ s with avatarBytes := data }, .marking)
  | .marking => some ({ s with avatarDirty := true }, .unlocking)
  | .unlocking => some ({ s with locked := false }, .returned)
  | .returned => none

/-- A statement of `ui_main`. -/
def draw (s : Shared Texture) : Ui → Option (Shared Texture × Ui)
  | .closed => none
  | .opening => if s.avatarBytes = [] then some ({ s with avatarTex := some none }, .frame) else some (s, .marking)
  | .marking => some ({ s with avatarDirty := true, avatarTex := some none }, .frame)
  | .frame => some (s, if s.avatarDirty then .dropping else .frame)
  | .dropping => some ({ s with avatarTex := some none }, .locking)
  | .locking => if s.locked then none else some ({ s with locked := true }, .building)
  | .building => some ({ s with avatarTex := some (build decode s.avatarBytes) }, .clearing)
  | .clearing => some ({ s with avatarDirty := false }, .unlocking)
  | .unlocking => some ({ s with locked := false }, .frame)

def exec (s : Shared Texture) : Thread → Option (Shared Texture × Thread)
  | .ui position => (draw decode s position).map fun step => (step.1, .ui step.2)
  | .producer position => (publish s position).map fun step => (step.1, .producer step.2)

inductive Event where
  | thread (i : ℕ)
  | download (data : List UInt8)
  | openWindow
  | closeWindow
deriving DecidableEq

/-- An event, if it is possible. The first thread is the window's; it closes at the head of its loop. -/
def next (pool : Pool (Shared Texture) Thread) (event : Event) : Option (Pool (Shared Texture) Thread) :=
  match event with
  | .thread i => do
    let (shared, rest) ← exec decode pool.shared (← pool.threads[i]?)
    some ⟨shared, pool.threads.set i rest⟩
  | .download data => some { pool with threads := pool.threads ++ [.producer (.locking data)] }
  | .openWindow =>
    if pool.threads[0]? = some (.ui .closed) then some { pool with threads := pool.threads.set 0 (.ui .opening) }
    else none
  | .closeWindow =>
    if pool.threads[0]? = some (.ui .frame) then
      some ⟨{ pool.shared with avatarTex := none }, pool.threads.set 0 (.ui .closed)⟩
    else none

/-- Before the first window, with nothing downloaded. -/
def initial : Pool (Shared Texture) Thread := ⟨{}, [.ui .closed]⟩

end Steps

end OsuTracker.Model.View.AvatarUpload
