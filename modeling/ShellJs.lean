import ShellJs.Lib.Memory
import ShellJs.Lib.Runs
import ShellJs.Hash.Load
import ShellJs.Resource.AllOrNothing
import ShellJs.Resource.Ids
import ShellJs.Thread.Drain
import ShellJs.Thread.Params
import ShellJs.Pool.Overruns
import ShellJs.Pool.Transfer
import ShellJs.Pool.Confluence
import ShellJs.File.Readline
import ShellJs.File.Reentrancy
import ShellJs.File.Writestring
import ShellJs.File.Numbers
import ShellJs.File.EchoCat
import ShellJs.File.Globs
import ShellJs.File.NullStrings
import ShellJs.File.Leaks
import ShellJs.Main.Scripts
import ShellJs.Main.Shebang
import ShellJs.V7.Exact
