import ScriptMachine.Proofs.Lowers.Reports
import ScriptMachine.Proofs.Lowers.Visits
import ScriptMachine.Proofs.Engines.Interleavings
import ScriptMachine.Proofs.Sessions.Limits
import ScriptMachine.Proofs.Sessions.Meaning
import ScriptMachine.Proofs.Sessions.Splitting
import ScriptMachine.Proofs.Sessions.Construction
import ScriptMachine.Proofs.Sessions.Operators
import ScriptMachine.Proofs.Activation
import ScriptMachine.Proofs.Instances
import ScriptMachine.Proofs.Observers
import ScriptMachine.Proofs.Memories.Handles
import ScriptMachine.Proofs.Sessions.Equality
import ScriptMachine.Proofs.Globals
import ScriptMachine.Proofs.Sessions.Accounts
import ScriptMachine.Proofs.Documents
import ScriptMachine.Proofs.Interning
import ScriptMachine.Proofs.Memories.Lookups
import ScriptMachine.Proofs.Routines
